import Triepack.Dictionary.RoundTrip
import Triepack.Json.Parse

/-!
# What is encoded

Every text that the parser gets through has a reading in the tolerant grammar, and what is built
from a text with a reading are the additions of its tree and the kind of its root.
-/

namespace Triepack

open JsonText

section Sound

variable {p p' : JsonParser}

theorem peek_apply (p : JsonParser) :
    peek p = (.ok ((p.rest.dropWhile isSpace).headD 0), { p with rest := p.rest.dropWhile isSpace }) := by
  rw [peek, Op.bind_ok (skipWs_apply p)]
  rfl

theorem expect_eq (c : UInt8) (p : JsonParser) :
    (∃ w rest, IsSpaces w ∧ p.rest = w ++ c :: rest ∧ expect c p = (.ok true, { p with rest := rest })) ∨
      ∃ q, expect c p = (.ok false, q) := by
  rcases h : expect c p with ⟨e | found, q⟩
  · rw [expect_apply] at h
    split at h <;> simp at h
  · cases found with
    | false => exact .inr ⟨q, rfl⟩
    | true =>
      obtain ⟨w, rest, hw, hrest, rfl⟩ := expect_eq_true h
      exact .inl ⟨w, rest, hw, hrest, rfl⟩

/-- Behind an item stands the closing bracket or a comma. -/
theorem loopTail_eq_ok {close : UInt8} {next : Jp Unit} (hclose : close ≠ 0)
    (h : loopTail close next p = (.ok (), p')) :
    ∃ w, IsSpaces w ∧ (p.rest = w ++ close :: p'.rest ∨
      ∃ q, p.rest = w ++ comma :: q.rest ∧ next q = (.ok (), p')) := by
  rw [loopTail, Op.bind_ok (skipWs_apply p), Op.bind_ok (peek_apply _)] at h
  simp only [List.dropWhile_idempotent] at h
  obtain ⟨w, hw, hrest⟩ := exists_spaces p.rest
  generalize p.rest.dropWhile isSpace = rest at h hrest
  by_cases hc : rest.headD 0 = close
  · rw [if_pos hc] at h
    cases rest with
    | nil => exact absurd hc.symm hclose
    | cons b t =>
      obtain rfl : b = close := hc
      obtain rfl : { p with rest := t } = p' := (Prod.mk.inj h).2
      exact ⟨w, hw, .inl hrest⟩
  · rw [if_neg hc] at h
    rcases expect_eq comma { p with rest := rest } with ⟨w', t, hw', ht, hexpect⟩ | ⟨q, hexpect⟩
    · rw [Op.bind_ok hexpect, if_neg (by simp)] at h
      refine ⟨w ++ w', hw.append hw', .inr ⟨_, ?_, h⟩⟩
      rw [hrest, show rest = _ from ht, List.append_assoc]
    · rw [Op.bind_ok hexpect] at h
      simp at h

/-- A container is empty, or its loop has run. -/
theorem parseContainer_eq_ok {opening closing : UInt8} (hclosing : closing ≠ 0) {loop : Jp Unit}
    (h : parseContainer opening closing loop p = (.ok (), p')) :
    ∃ w w' body, IsSpaces w ∧ IsSpaces w' ∧ p.rest = w ++ opening :: (w' ++ body) ∧
      (body = closing :: p'.rest ∨
        ∃ q q' : JsonParser, q.rest = body ∧ q'.rest = p'.rest ∧ loop q = (.ok (), q')) := by
  obtain ⟨_, p₁, henter, hrun⟩ := Op.bind_eq_ok h
  have hp₁ : p₁.rest = p.rest := by
    change (if p.depth + 1 > maxNestingDepth then Op.fail .jsonDepth else pure () : Jp Unit) _ = _
      at henter
    split_ifs at henter
    · simp at henter
    · rw [← (Prod.mk.inj henter).2]
  rcases expect_eq opening p₁ with ⟨w, rest, hw, hrest, hexpect⟩ | ⟨q, hexpect⟩
  · rw [Op.bind_ok hexpect, if_neg (by simp), Op.bind_ok (peek_apply _)] at hrun
    obtain ⟨w', hw', hrest'⟩ := exists_spaces rest
    generalize rest.dropWhile isSpace = body at hrun hrest'
    refine ⟨w, w', body, hw, hw', by rw [← hp₁, hrest, hrest'], ?_⟩
    by_cases hc : body.headD 0 = closing
    · rw [if_pos hc] at hrun
      cases body with
      | nil => exact absurd hc.symm hclosing
      | cons b t =>
        obtain rfl : b = closing := hc
        have hrest' : t = p'.rest := congrArg (fun x => x.2.rest) hrun
        exact .inl (by rw [hrest'])
    · rw [if_neg hc] at hrun
      obtain ⟨_, q', hloop, hleave⟩ := Op.bind_eq_ok hrun
      exact .inr ⟨_, q', rfl, congrArg (fun x => x.2.rest) hleave, hloop⟩
  · rw [Op.bind_ok hexpect] at hrun
    simp at hrun

/-- A child is read between what is done to the path. -/
theorem child_eq_ok {path : List UInt8} {n : Nat} {x next : Jp Unit}
    (h : (do setPath path; x; pathRestore n; next : Jp Unit) p = (.ok (), p')) :
    ∃ q q' r : JsonParser, q.rest = p.rest ∧ r.rest = q'.rest ∧ x q = (.ok (), q') ∧
      next r = (.ok (), p') := by
  obtain ⟨_, q, hset, h⟩ := Op.bind_eq_ok h
  obtain ⟨_, q', hx, h⟩ := Op.bind_eq_ok h
  obtain ⟨_, r, hrestore, hnext⟩ := Op.bind_eq_ok h
  have hset_rest : ∀ {path : List UInt8} {p q : JsonParser}, setPath path p = (.ok (), q) →
      q.rest = p.rest := by
    intro path p q hset
    rw [setPath] at hset
    split_ifs at hset
    · rw [← (Prod.mk.inj hset).2]
    · simp [Jp.stop] at hset
  exact ⟨q, q', r, hset_rest hset, hset_rest hrestore, hx, hnext⟩

theorem parseNumber_eq_ok {strtod : List UInt8 → UInt64} {val : Value (List UInt8)}
    (h : parseNumber strtod p = (.ok val, p')) :
    ∃ n, Reads tolerant (.value (.num n)) p.rest p'.rest := by
  rw [parseNumber] at h
  split at h
  · simp at h
  · rename_i rest isFloat isNeg hscan
    obtain ⟨n, hn, hrest⟩ := scanNumber_eq_some hscan
    have hp' : rest = p'.rest := congrArg (fun x => x.2.rest) h
    rw [hrest, hp']
    exact ⟨n, .num hn _⟩

theorem reads_of_isPrefixOf {word text : List UInt8} (h : word.isPrefixOf text = true) :
    text = word ++ text.drop word.length := by
  obtain ⟨t, rfl⟩ := List.isPrefixOf_iff_prefix.mp h
  rw [List.drop_left]

/-- What the five functions read, when they succeed. -/
structure ParseSound (strtod : List UInt8 → UInt64) (fuel : Nat) : Prop where
  value : ∀ p p', parseValue strtod fuel p = (.ok (), p') →
    ∃ w v text, IsSpaces w ∧ p.rest = w ++ text ∧ Reads tolerant (.value v) text p'.rest
  object : ∀ p p', parseObject strtod fuel p = (.ok (), p') →
    ∃ w ms text, IsSpaces w ∧ p.rest = w ++ text ∧ Reads tolerant (.value (.obj ms)) text p'.rest
  array : ∀ p p', parseArray strtod fuel p = (.ok (), p') →
    ∃ w vs text, IsSpaces w ∧ p.rest = w ++ text ∧ Reads tolerant (.value (.arr vs)) text p'.rest
  members : ∀ p p', parseMembers strtod fuel p = (.ok (), p') →
    ∃ ms, Reads tolerant (.members ms) p.rest p'.rest
  elements : ∀ p p' idx, parseElements strtod fuel idx p = (.ok (), p') →
    ∃ vs, Reads tolerant (.elements vs) p.rest p'.rest

theorem parseValue_sound {strtod : List UInt8 → UInt64} {fuel : Nat} (ih : ParseSound strtod fuel)
    (h : parseValue strtod (fuel + 1) p = (.ok (), p')) :
    ∃ w v text, IsSpaces w ∧ p.rest = w ++ text ∧ Reads tolerant (.value v) text p'.rest := by
  obtain ⟨w, hw, hrest⟩ := exists_spaces p.rest
  cases hdrop : p.rest.dropWhile isSpace with
  | nil =>
    rw [parseValue, Op.bind_ok (skipWs_apply p), hdrop] at h
    change (Op.fail .jsonSyntax : Jp Unit) _ = _ at h
    simp at h
  | cons c t =>
    rw [parseValue_succ strtod fuel hdrop] at h
    rw [hdrop] at hrest
    split_ifs at h with h₁ h₂ h₃ h₄ h₅ h₆ h₇
    · obtain ⟨w', ms, text, hw', htext, hread⟩ := ih.object _ _ h
      exact ⟨w ++ w', _, text, hw.append hw', by rw [hrest, show c :: t = _ from htext, List.append_assoc], hread⟩
    · obtain ⟨w', vs, text, hw', htext, hread⟩ := ih.array _ _ h
      exact ⟨w ++ w', _, text, hw.append hw', by rw [hrest, show c :: t = _ from htext, List.append_assoc], hread⟩
    · obtain ⟨str, q, hstr, hadd⟩ := Op.bind_eq_ok h
      obtain ⟨w', s, hw', hs, htext⟩ := parseBuffered_eq_ok hstr
      have hq : q.rest = p'.rest := congrArg (fun x => x.2.rest) hadd
      refine ⟨w ++ w', .str s, _, hw.append hw', ?_, .str hs _⟩
      rw [hrest, show c :: t = _ from htext, hq, List.append_assoc]
    · obtain ⟨val, q, hval, hadd⟩ := Op.bind_eq_ok h
      obtain ⟨n, hread⟩ := parseNumber_eq_ok hval
      have hq : q.rest = p'.rest := congrArg (fun x => x.2.rest) hadd
      exact ⟨w, _, _, hw, hrest, hq ▸ hread⟩
    · have hp' : (c :: t).drop 4 = p'.rest := congrArg (fun x => x.2.rest) h
      refine ⟨w, .bool true, _, hw, hrest, ?_⟩
      rw [reads_of_isPrefixOf h₅, ← hp']
      exact .boolTrue _
    · have hp' : (c :: t).drop 5 = p'.rest := congrArg (fun x => x.2.rest) h
      refine ⟨w, .bool false, _, hw, hrest, ?_⟩
      rw [reads_of_isPrefixOf h₆, ← hp']
      exact .boolFalse _
    · have hp' : (c :: t).drop 4 = p'.rest := congrArg (fun x => x.2.rest) h
      refine ⟨w, .null, _, hw, hrest, ?_⟩
      rw [reads_of_isPrefixOf h₇, ← hp']
      exact .null _
    · simp at h

theorem parse_sound (strtod : List UInt8 → UInt64) (fuel : Nat) : ParseSound strtod fuel := by
  induction fuel with
  | zero =>
    refine ⟨fun p p' h => ?_, fun p p' h => ?_, fun p p' h => ?_, fun p p' h => ?_,
      fun p p' idx h => ?_⟩ <;> simp [parseValue, parseObject, parseArray, parseMembers,
        parseElements, Jp.stop] at h
  | succ fuel ih =>
    refine ⟨fun p p' => parseValue_sound ih, fun p p' h => ?_, fun p p' h => ?_, fun p p' h => ?_,
      fun p p' idx h => ?_⟩
    · rw [parseObject_succ] at h
      obtain ⟨w, w', body, hw, hw', hrest, rfl | ⟨q, q', rfl, hq', hloop⟩⟩ :=
        parseContainer_eq_ok (by decide) h
      · exact ⟨w, [], _, hw, hrest, .emptyObj hw' _⟩
      · obtain ⟨ms, hread⟩ := ih.members _ _ hloop
        exact ⟨w, ms, _, hw, hrest, .obj (hq' ▸ hread.members_spaces hw')⟩
    · rw [parseArray_succ] at h
      obtain ⟨w, w', body, hw, hw', hrest, rfl | ⟨q, q', rfl, hq', hloop⟩⟩ :=
        parseContainer_eq_ok (by decide) h
      · exact ⟨w, [], _, hw, hrest, .emptyArr hw' _⟩
      · obtain ⟨vs, hread⟩ := ih.elements _ _ _ hloop
        exact ⟨w, vs, _, hw, hrest, .arr (hq' ▸ hread.elements_spaces hw')⟩
    · rw [parseMembers] at h
      obtain ⟨key, q₁, hkey, hafter⟩ := Op.bind_eq_ok h
      obtain ⟨w₁, k, hw₁, hk, hrest₁⟩ := parseBuffered_eq_ok hkey
      obtain ⟨w₂, hw₂, hrest₂⟩ := exists_spaces q₁.rest
      rw [Op.bind_ok (skipWs_apply q₁)] at hafter
      rcases expect_eq colon { q₁ with rest := q₁.rest.dropWhile isSpace } with
        ⟨w₃, t, hw₃, ht, hexpect⟩ | ⟨q, hexpect⟩
      · rw [Op.bind_ok hexpect, if_neg (by simp), pathPushKey_bind] at hafter
        obtain ⟨q, q', r, hq, hr, hvalue, hnext⟩ := child_eq_ok hafter
        obtain ⟨w, v, text, hw, hrest, hread⟩ := ih.value _ _ hvalue
        have hrest₃ : p.rest = w₁ ++ quote :: strTail k (w₂ ++ w₃ ++ colon :: (w ++ text)) := by
          rw [hrest₁, hrest₂, show q₁.rest.dropWhile isSpace = _ from ht, List.append_assoc, ← hrest, hq]
        rw [hrest₃]
        obtain ⟨w', hw', hclose | ⟨r', hcomma, hloop⟩⟩ := loopTail_eq_ok (by decide) hnext
        · exact ⟨[(k, v)], .lastMember hw₁ hk (hw₂.append hw₃) hw hw' (hclose ▸ hr ▸ hread)⟩
        · obtain ⟨ms, hreads⟩ := ih.members _ _ hloop
          exact ⟨(k, v) :: ms, .member hw₁ hk (hw₂.append hw₃) hw hw' (hcomma ▸ hr ▸ hread) hreads⟩
      · rw [Op.bind_ok hexpect] at hafter
        simp at hafter
    · rw [parseElements_succ] at h
      obtain ⟨q, q', r, hq, hr, hvalue, hnext⟩ := child_eq_ok h
      obtain ⟨w, v, text, hw, hrest, hread⟩ := ih.value _ _ hvalue
      rw [← hq, hrest]
      obtain ⟨w', hw', hclose | ⟨r', hcomma, hloop⟩⟩ := loopTail_eq_ok (by decide) hnext
      · exact ⟨[v], .lastElement hw hw' (hclose ▸ hr ▸ hread)⟩
      · obtain ⟨vs, hreads⟩ := ih.elements _ _ _ hloop
        exact ⟨v :: vs, .element hw hw' (hcomma ▸ hr ▸ hread) hreads⟩

end Sound

/-! ## Documents -/

/-- The kind that is stored for a root. -/
def rootType : Tree → UInt64
  | .arr _ => jsonRootArray
  | _ => jsonRootObject

/-- The additions that a document leads to. -/
def documentAdds (strtod : List UInt8 → UInt64) (v : Tree) : Except Stop (List Addition) := do
  let adds ← valueAdds strtod v 0 []
  .ok (adds ++ [(jsonMetaRoot, some (.uint (rootType v)))])

section Documents

variable {L : Lexicon} {strtod : List UInt8 → UInt64} {q : Qsort} {v : Tree} {text rest : List UInt8}

theorem ParsesTo.root {x : Jp Unit} {p : JsonParser} {adds : Except Stop (List Addition)}
    (h : ParsesTo x p adds rest) (root : UInt64) :
    (∀ as, adds = .ok as → (do x; pure root : Jp UInt64) p =
      (.ok root, { p with rest := rest, enc := encoderAddAll p.enc as })) ∧
    ∀ e, adds = .error e → ((do x; pure root : Jp UInt64) p).1 = .error e := by
  constructor
  · rintro as rfl
    exact Op.bind_ok h
  · rintro e rfl
    rw [Op.bind_error (Prod.ext h rfl)]

/-- A root is read like any other value. -/
theorem parseRoot_of_reads (h : ReadsDoc L v text rest) :
    (∀ adds, valueAdds strtod v 0 [] = .ok adds → parseRoot strtod text (jsonParser text) =
      (.ok (rootType v), { jsonParser text with rest := rest, enc := added adds })) ∧
    ∀ e, valueAdds strtod v 0 [] = .error e →
      (parseRoot strtod text (jsonParser text)).1 = .error e := by
  obtain ⟨w, body, htext, hw, hread, hroot⟩ := h
  obtain ⟨b, t, hbody, hb⟩ := hread.starts
  have hdrop : text.dropWhile isSpace = b :: t := by
    rw [htext, hbody]
    exact dropWhile_spaces hw (by simpa using not_space_of_starts hb)
  have hnum : (∃ n, v = .num n) → EndsNumber rest := by
    rintro ⟨n, rfl⟩
    exact hroot.elim
  have hparses : ParsesTo (parseValue strtod (parseFuel text + 1)) (jsonParser text)
      (valueAdds strtod v 0 []) rest :=
    reads_parses strtod hread hnum (jsonParser text) _ (hdrop.trans hbody.symm)
      (show 3 * text.length + 1 ≤ 3 * text.length + 3 + 1 by omega) (show 0 < pathSize by decide)
  have hvalue : parseValue strtod (parseFuel text + 1) (jsonParser text) = _ :=
    parseValue_succ strtod (parseFuel text) hdrop
  have hstart : parseRoot strtod text (jsonParser text) =
      (if b = openBrace then do
        parseObject strtod (parseFuel text)
        pure jsonRootObject
      else if b = openBracket then do
        parseArray strtod (parseFuel text)
        pure jsonRootArray
      else Op.fail .jsonSyntax : Jp UInt64) { jsonParser text with rest := b :: t } := by
    rw [parseRoot, Op.bind_ok (skipWs_apply _), show (jsonParser text).rest = text from rfl, hdrop]
    rfl
  match v, hroot, hb with
  | .obj ms, _, hb =>
    obtain rfl : b = openBrace := hb
    rw [if_pos rfl] at hvalue hstart
    rw [hstart]
    exact (ParsesTo.of_eq hvalue.symm rfl hparses).root jsonRootObject
  | .arr vs, _, hb =>
    obtain rfl : b = openBracket := hb
    rw [if_neg (by decide), if_pos rfl] at hvalue hstart
    rw [hstart]
    exact (ParsesTo.of_eq hvalue.symm rfl hparses).root jsonRootArray

theorem added_append (adds : List Addition) (a : Addition) :
    added (adds ++ [a]) = encoderAddN (added adds) a.1 a.2 := by
  rw [added, encoderAddAll_append]
  rfl

theorem documentAdds_ok {adds : List Addition} (h : valueAdds strtod v 0 [] = .ok adds) :
    documentAdds strtod v = .ok (adds ++ [(jsonMetaRoot, some (.uint (rootType v)))]) := by
  rw [documentAdds, h]
  rfl

theorem documentAdds_error {e : Stop} (h : valueAdds strtod v 0 [] = .error e) :
    documentAdds strtod v = .error e := by
  rw [documentAdds, h]
  rfl

/-- What is built from a document. -/
theorem jsonEncode_of_reads (h : ReadsDoc L v text rest) :
    jsonEncode strtod q text =
      match documentAdds strtod v with
      | .ok adds => (encoderBuild q (added adds)).1
      | .error e => .error e := by
  obtain ⟨hok, herror⟩ := @parseRoot_of_reads L strtod v text rest h
  rw [jsonEncode]
  cases hadds : valueAdds strtod v 0 [] with
  | error e =>
    rcases hroot : parseRoot strtod text (jsonParser text) with ⟨e' | r, p⟩
    · obtain rfl : e' = e := by simpa [hroot] using herror e hadds
      rw [documentAdds_error hadds]
    · simpa [hroot] using herror e hadds
  | ok adds =>
    rw [hok adds hadds, documentAdds_ok hadds]
    simp only [added_append]

/-- Only documents are encoded. -/
theorem exists_reads_of_encode {buf : List UInt8} (h : jsonEncode strtod q text = .ok buf) :
    ∃ v rest, ReadsDoc tolerant v text rest := by
  rw [jsonEncode] at h
  rcases hroot : parseRoot strtod text (jsonParser text) with ⟨e | r, p⟩
  · rw [hroot] at h
    simp at h
  · rw [parseRoot, Op.bind_ok (skipWs_apply _), Op.bind_ok (show Jp.get _ = (.ok _, _) from rfl),
      show (jsonParser text).rest = text from rfl] at hroot
    obtain ⟨w, hw, htext⟩ := exists_spaces text
    generalize text.dropWhile isSpace = body at hroot htext
    rcases body with _ | ⟨c, t⟩
    · simp at hroot
    · simp only at hroot
      split_ifs at hroot
      · obtain ⟨_, p', hobject, _⟩ := Op.bind_eq_ok hroot
        obtain ⟨w', ms, text', hw', htext', hread⟩ := (parse_sound strtod _).object _ _ hobject
        refine ⟨.obj ms, _, w ++ w', text', ?_, hw.append hw', hread, trivial⟩
        rw [htext, show c :: t = _ from htext', List.append_assoc]
      · obtain ⟨_, p', harray, _⟩ := Op.bind_eq_ok hroot
        obtain ⟨w', vs, text', hw', htext', hread⟩ := (parse_sound strtod _).array _ _ harray
        refine ⟨.arr vs, _, w ++ w', text', ?_, hw.append hw', hread, trivial⟩
        rw [htext, show c :: t = _ from htext', List.append_assoc]
      · simp at hroot

end Documents

end Triepack
