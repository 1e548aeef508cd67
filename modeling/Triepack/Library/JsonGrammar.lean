import Triepack.Library.Json

/-!
# The JSON grammar

`Reads L part text rest` says that the text begins with the part and that `rest` comes behind it.
Which numbers and characters a grammar allows is its lexicon: `rfc8259` is the standard's, and
`tolerant` is the largest. A text has at most one reading.
-/

namespace JsonText

/-- The tokens that a grammar allows. -/
structure Lexicon where
  number : NumLit → Prop
  char : StrChar → Prop
  number_spelled : ∀ n, number n → n.Spelled
  char_spelled : ∀ c, char c → c.Spelled

/-- Every number and character that can be told apart from the others. -/
def tolerant : Lexicon where
  number := NumLit.Spelled
  char := StrChar.Spelled
  number_spelled _ := id
  char_spelled _ := id

/-- A character that is not escaped although the standard demands it, or half a surrogate pair. -/
def StrChar.Sloppy : StrChar → Prop
  | .raw b => b < 0x20
  | .unit h => IsLow h.value
  | _ => False

/-- The tokens of RFC 8259: no leading zeros, no raw control characters, and surrogates only in
pairs. -/
def rfc8259 : Lexicon where
  number n := n.Spelled ∧ ¬ n.LeadingZero
  char c := c.Spelled ∧ ¬ c.Sloppy
  number_spelled _ := And.left
  char_spelled _ := And.left

/-- What is read: a value, or the elements or members up to the closing bracket. -/
inductive Part where
  | value (v : Tree)
  | elements (vs : List Tree)
  | members (ms : List (List StrChar × Tree))

def IsSpaces (w : List UInt8) : Prop := ∀ b ∈ w, isSpace b = true

inductive Reads (L : Lexicon) : Part → List UInt8 → List UInt8 → Prop
  | null (rest) : Reads L (.value .null) (nullWord ++ rest) rest
  | boolTrue (rest) : Reads L (.value (.bool true)) (trueWord ++ rest) rest
  | boolFalse (rest) : Reads L (.value (.bool false)) (falseWord ++ rest) rest
  | num {n} (hn : L.number n) (rest) : Reads L (.value (.num n)) (n.text ++ rest) rest
  | str {s} (hs : ∀ c ∈ s, L.char c) (rest) :
      Reads L (.value (.str s)) (quote :: strTail s rest) rest
  | emptyArr {w} (hw : IsSpaces w) (rest) :
      Reads L (.value (.arr [])) (openBracket :: (w ++ closeBracket :: rest)) rest
  | arr {vs text rest} (h : Reads L (.elements vs) text rest) :
      Reads L (.value (.arr vs)) (openBracket :: text) rest
  | emptyObj {w} (hw : IsSpaces w) (rest) :
      Reads L (.value (.obj [])) (openBrace :: (w ++ closeBrace :: rest)) rest
  | obj {ms text rest} (h : Reads L (.members ms) text rest) :
      Reads L (.value (.obj ms)) (openBrace :: text) rest
  | lastElement {w w' v text rest} (hw : IsSpaces w) (hw' : IsSpaces w')
      (hv : Reads L (.value v) text (w' ++ closeBracket :: rest)) :
      Reads L (.elements [v]) (w ++ text) rest
  | element {w w' v vs text text' rest} (hw : IsSpaces w) (hw' : IsSpaces w')
      (hv : Reads L (.value v) text (w' ++ comma :: text'))
      (hvs : Reads L (.elements vs) text' rest) : Reads L (.elements (v :: vs)) (w ++ text) rest
  | lastMember {w₁ w₂ w₃ w' k v text rest} (hw₁ : IsSpaces w₁) (hk : ∀ c ∈ k, L.char c)
      (hw₂ : IsSpaces w₂) (hw₃ : IsSpaces w₃) (hw' : IsSpaces w')
      (hv : Reads L (.value v) text (w' ++ closeBrace :: rest)) :
      Reads L (.members [(k, v)]) (w₁ ++ quote :: strTail k (w₂ ++ colon :: (w₃ ++ text))) rest
  | member {w₁ w₂ w₃ w' k v ms text text' rest} (hw₁ : IsSpaces w₁) (hk : ∀ c ∈ k, L.char c)
      (hw₂ : IsSpaces w₂) (hw₃ : IsSpaces w₃) (hw' : IsSpaces w')
      (hv : Reads L (.value v) text (w' ++ comma :: text'))
      (hms : Reads L (.members ms) text' rest) :
      Reads L (.members ((k, v) :: ms))
        (w₁ ++ quote :: strTail k (w₂ ++ colon :: (w₃ ++ text))) rest

/-- A whole text: an object or array behind spaces, and whatever comes behind it. -/
def ReadsDoc (L : Lexicon) (v : Tree) (text rest : List UInt8) : Prop :=
  ∃ w body, text = w ++ body ∧ IsSpaces w ∧ Reads L (.value v) body rest ∧
    match v with
    | .arr _ | .obj _ => True
    | _ => False

/-! ## What is told from the first bytes -/

/-- The bytes that values of a kind begin with. -/
def Json.Starts {σ ν : Type} (b : UInt8) : Json σ ν → Prop
  | .null => b = 0x6E
  | .bool true => b = 0x74
  | .bool false => b = 0x66
  | .num _ => b = minus ∨ isDigit b = true
  | .str _ => b = quote
  | .arr _ => b = openBracket
  | .obj _ => b = openBrace

/-- No number goes on here. -/
def EndsNumber (rest : List UInt8) : Prop :=
  ∀ b ∈ rest.head?, isDigit b = false ∧ b ≠ point ∧ b ≠ 0x65 ∧ b ≠ 0x45

/-- Two splits before the first element without the property are one. -/
theorem append_inj_of_all {p : UInt8 → Bool} {as as' bs bs' : List UInt8} (has : ∀ a ∈ as, p a = true)
    (has' : ∀ a ∈ as', p a = true) (hbs : ∀ b ∈ bs.head?, p b = false)
    (hbs' : ∀ b ∈ bs'.head?, p b = false) (h : as ++ bs = as' ++ bs') : as = as' ∧ bs = bs' := by
  induction as generalizing as' with
  | nil =>
    cases as' with
    | nil => exact ⟨rfl, h⟩
    | cons a as' =>
      have hfalse := hbs a (by rw [List.nil_append] at h; simp [h])
      simp [has' a (by simp)] at hfalse
  | cons a as ih =>
    cases as' with
    | nil =>
      have hfalse := hbs' a (by rw [List.nil_append] at h; simp [← h])
      simp [has a (by simp)] at hfalse
    | cons a' as' =>
      obtain ⟨rfl, htail⟩ : a = a' ∧ as ++ bs = as' ++ bs' := by simpa using h
      obtain ⟨rfl, rfl⟩ := ih (fun b hb => has b (by simp [hb])) (fun b hb => has' b (by simp [hb])) htail
      exact ⟨rfl, rfl⟩

theorem EndsNumber.spaces_append {w : List UInt8} {b : UInt8} {rest : List UInt8} (hw : IsSpaces w)
    (hb : isDigit b = false ∧ b ≠ point ∧ b ≠ 0x65 ∧ b ≠ 0x45) : EndsNumber (w ++ b :: rest) := by
  intro c hc
  cases w with
  | nil =>
    obtain rfl : b = c := by simpa using hc
    exact hb
  | cons a w =>
    obtain rfl : a = c := by simpa using hc
    have hspace := hw a (by simp)
    simp only [isSpace, Bool.or_eq_true, beq_iff_eq] at hspace
    obtain ((rfl | rfl) | rfl) | rfl := hspace <;> decide

/-- What a value begins with. -/
theorem Reads.starts {L : Lexicon} {v : Tree} {text rest : List UInt8}
    (h : Reads L (.value v) text rest) : ∃ b t, text = b :: t ∧ v.Starts b := by
  cases h with
  | null | boolTrue | boolFalse => exact ⟨_, _, rfl, rfl⟩
  | num hn =>
    rename_i n
    obtain ⟨hne, hall⟩ := (L.number_spelled n hn).int
    obtain ⟨d, ds, hint⟩ := List.exists_cons_of_ne_nil hne
    rcases hneg : n.neg with _ | _
    · refine ⟨d, ds ++ (n.fracText ++ n.expText) ++ rest, by simp [NumLit.text, hneg, hint], .inr ?_⟩
      exact hall d (by simp [hint])
    · exact ⟨minus, n.int ++ (n.fracText ++ n.expText) ++ rest, by simp [NumLit.text, hneg], .inl rfl⟩
  | str | emptyArr | arr | emptyObj | obj => exact ⟨_, _, rfl, rfl⟩

/-- A reading takes something from its text. -/
theorem Reads.length_lt {L : Lexicon} {part : Part} {text rest : List UInt8}
    (h : Reads L part text rest) : rest.length < text.length := by
  induction h with
  | null | boolTrue | boolFalse =>
    rw [List.length_append]
    exact Nat.lt_add_of_pos_left (by decide)
  | @num n hn rest =>
    have hint := List.length_pos_of_ne_nil (L.number_spelled n hn).int.1
    simp only [NumLit.text, List.length_append]
    omega
  | str | emptyArr | emptyObj =>
    simp only [strTail, List.length_append, List.length_cons]
    omega
  | arr h ih | obj h ih =>
    rw [List.length_cons]
    omega
  | lastElement | element | lastMember | member =>
    simp only [strTail, List.length_append, List.length_cons] at *
    omega

theorem dropWhile_spaces {w : List UInt8} (hw : IsSpaces w) {rest : List UInt8}
    (hrest : ∀ b ∈ rest.head?, isSpace b = false) : (w ++ rest).dropWhile isSpace = rest := by
  induction w with
  | nil =>
    cases rest with
    | nil => rfl
    | cons b rest => simp [hrest b (by simp)]
  | cons a w ih =>
    rw [List.cons_append, List.dropWhile_cons_of_pos (hw a (by simp))]
    exact ih fun b hb => hw b (by simp [hb])

theorem length_dropWhile_le (p : UInt8 → Bool) (as : List UInt8) :
    (as.dropWhile p).length ≤ as.length := (List.dropWhile_sublist p).length_le

theorem not_space_of_starts {v : Tree} {b : UInt8} (h : v.Starts b) : isSpace b = false := by
  have hdigit : ∀ b : UInt8, isDigit b = true → isSpace b = false := forall_byte (by decide +kernel)
  match v, h with
  | .null, h | .bool true, h | .bool false, h | .str _, h | .arr _, h | .obj _, h =>
    rw [show b = _ from h]
    decide
  | .num _, .inl h =>
    rw [h]
    decide
  | .num _, .inr h => exact hdigit b h

/-- A value stands behind the spaces before it. -/
theorem Reads.dropWhile_eq {L : Lexicon} {v : Tree} {w text rest : List UInt8}
    (h : Reads L (.value v) text rest) (hw : IsSpaces w) : (w ++ text).dropWhile isSpace = text := by
  obtain ⟨b, t, rfl, hb⟩ := h.starts
  exact dropWhile_spaces hw (by simpa using not_space_of_starts hb)

theorem Json.Starts.ne_closeBracket {v : Tree} {b : UInt8} (h : v.Starts b) : b ≠ closeBracket := by
  rintro rfl
  match v, h with
  | .num _, .inl h | .num _, .inr h => exact absurd h (by decide)

theorem IsSpaces.append {w w' : List UInt8} (hw : IsSpaces w) (hw' : IsSpaces w') :
    IsSpaces (w ++ w') := fun b hb => (List.mem_append.mp hb).elim (hw b) (hw' b)

/-- Elements may have spaces in front. -/
theorem Reads.elements_spaces {L : Lexicon} {vs : List Tree} {w text rest : List UInt8}
    (hw : IsSpaces w) (h : Reads L (.elements vs) text rest) : Reads L (.elements vs) (w ++ text) rest := by
  cases h with
  | lastElement hw' hend hv =>
    rw [← List.append_assoc]
    exact .lastElement (hw.append hw') hend hv
  | element hw' hend hv hvs =>
    rw [← List.append_assoc]
    exact .element (hw.append hw') hend hv hvs

/-- Members may have spaces in front. -/
theorem Reads.members_spaces {L : Lexicon} {ms : List (List StrChar × Tree)} {w text rest : List UInt8}
    (hw : IsSpaces w) (h : Reads L (.members ms) text rest) : Reads L (.members ms) (w ++ text) rest := by
  cases h with
  | lastMember hw' hk hw₂ hw₃ hend hv =>
    rw [← List.append_assoc]
    exact .lastMember (hw.append hw') hk hw₂ hw₃ hend hv
  | member hw' hk hw₂ hw₃ hend hv hms =>
    rw [← List.append_assoc]
    exact .member (hw.append hw') hk hw₂ hw₃ hend hv hms

/-- Elements begin with a value. -/
theorem Reads.elements_head {L : Lexicon} {vs : List Tree} {text rest : List UInt8}
    (h : Reads L (.elements vs) text rest) :
    ∃ b t, text.dropWhile isSpace = b :: t ∧ b ≠ closeBracket := by
  cases h with
  | lastElement hw _ hv | element hw _ hv _ =>
    obtain ⟨b, t, rfl, hb⟩ := hv.starts
    exact ⟨b, t, dropWhile_spaces hw (by simpa using not_space_of_starts hb), hb.ne_closeBracket⟩

/-- Members begin with a key. -/
theorem Reads.members_head {L : Lexicon} {ms : List (List StrChar × Tree)} {text rest : List UInt8}
    (h : Reads L (.members ms) text rest) : ∃ t, text.dropWhile isSpace = quote :: t := by
  cases h with
  | lastMember hw | member hw => exact ⟨_, dropWhile_spaces hw (by simpa using (by decide : isSpace quote = false))⟩

end JsonText
