import Triepack.Dictionary.Iteration
import Triepack.Json.Dom

/-!
# Enumerating a document

The dictionary of a document has a key for each leaf and one for the type of the root. Iteration
and the count are those of the dictionary.
-/

namespace Triepack

open JsonText Json

/-- `tp_json_iterate`. -/
def jsonIterate (j : JsonDom) : Iter := dictIterate j.dict

/-- `tp_json_count`. -/
def jsonCount (j : JsonDom) : Nat := j.count

/-- The results of the first `n` calls of `tp_iter_next` on the iterator of a document. -/
def jsonResults (j : JsonDom) (n : Nat) : List (Except Stop (List UInt8 × Value (List UInt8))) :=
  (iterNextN n (jsonIterate j)).1.map (Except.map (IterItem.read j.dict.buf))

/-- The names of the members of an object or of the elements of an array. -/
def topNames : Tree → List (List UInt8)
  | .obj ms => ms.map fun m => strBytes m.1
  | .arr vs => (List.range vs.length).map indexText
  | _ => []

/-- The document is opened, and its iterator gives one entry for each top-level member or element
and no other; the count is the number of them. -/
def EnumeratesTop (v : Tree) (buf : List UInt8) : Prop :=
  ∃ (j : JsonDom) (es : List Entry), jsonOpen buf = .ok j ∧ jsonCount j = (topNames v).length ∧
    (∀ n, jsonResults j n = resultsOf n ((es.map Entry.pair).map some)) ∧
    (es.map Entry.key).Perm (topNames v) ∧ jsonMetaRoot ∉ es.map Entry.key

section Documents

variable {strtod : List UInt8 → UInt64} {q : Qsort} {v : Tree} {text rest buf : List UInt8} {j : JsonDom}

theorem jsonOpen_eq_ok (h : jsonOpen buf = .ok j) : ∃ d, dictOpen buf = .ok d ∧ j.dict = d ∧
    jsonCount j = dictCount d - 1 := by
  rw [jsonOpen] at h
  obtain ⟨d, hopen, h₁⟩ := except_bind_eq_ok h
  obtain ⟨root, -, h₂⟩ := except_bind_eq_ok h₁
  obtain rfl := Except.ok.inj h₂
  refine ⟨d, hopen, rfl, ?_⟩
  rw [jsonCount]
  dsimp only
  split_ifs <;> omega

/-- The type of the root is among the keys of every document. -/
theorem jsonMetaRoot_mem_survivors {adds : List Addition} {root : Option (Value (List UInt8))}
    (hne : survivors (adds ++ [(jsonMetaRoot, root)]) ≠ []) :
    jsonMetaRoot ∈ (survivors (adds ++ [(jsonMetaRoot, root)])).map Prod.fst := by
  obtain ⟨front, hfront⟩ := survivors_suffix (adds ++ [(jsonMetaRoot, root)])
  have hlast := congrArg List.getLast? hfront
  rw [List.getLast?_append_of_ne_nil _ hne, List.getLast?_concat] at hlast
  exact List.mem_map.mpr ⟨_, List.mem_of_getLast? hlast, rfl⟩

/-- `tp_json_count` is the number of the leaves. -/
theorem jsonCount_eq_length_leaves (hread : ReadsDoc tolerant v text rest)
    (hencode : jsonEncode strtod q text = .ok buf) (hkeys : v.denote.Keyed IsPathKey) (hroom : HasRoom v)
    (hcount : v.denote.leaves.length + 1 < 2 ^ 32) (hopen : jsonOpen buf = .ok j) :
    jsonCount j = v.denote.leaves.length := by
  obtain ⟨d, hdict, -, hj⟩ := jsonOpen_eq_ok hopen
  have hbuild := encoderBuild_of_encode hread hencode hroom
  rw [hj, dictCount_of_build (nodup_documentAdditions strtod hkeys) hbuild hdict, length_documentAdditions,
    Nat.mod_eq_of_lt hcount, Nat.add_sub_cancel]

/-- A document without top-level members has no leaves. -/
theorem leaves_eq_nil_of_topNames (hread : ReadsDoc tolerant v text rest) (h : topNames v = []) :
    v.denote.leaves = [] := by
  obtain ⟨-, -, -, -, -, hcontainer⟩ := hread
  cases v with
  | null | bool | num | str => exact hcontainer.elim
  | arr vs =>
    obtain rfl : vs = [] := by simpa [topNames] using h
    rfl
  | obj ms =>
    obtain rfl : ms = [] := by simpa [topNames] using h
    rfl

/-- No document is enumerated by its top level: either the type of the root is one of the entries,
or nothing is left of more than 2^32 leaves. -/
theorem not_enumeratesTop (hread : ReadsDoc tolerant v text rest)
    (hencode : jsonEncode strtod q text = .ok buf) : ¬ EnumeratesTop v buf := by
  rintro ⟨j, es, hopen, -, hiter, hnames, hmeta⟩
  obtain ⟨d, hdict, rfl, -⟩ := jsonOpen_eq_ok hopen
  rw [jsonEncode_of_reads hread] at hencode
  cases hadds : valueAdds strtod v 0 [] with
  | error e =>
    rw [documentAdds_error hadds] at hencode
    simp at hencode
  | ok adds =>
    rw [documentAdds_ok hadds] at hencode
    obtain ⟨d, es', hdict', -, hkeys, -, hcase⟩ := iterates_of_build hencode
    obtain rfl : j.dict = d := Except.ok.inj (hdict.symm.trans hdict')
    have hall : Iterates j.dict es false := fun n => by
      rw [if_neg (by simp), List.append_nil]
      exact hiter n
    obtain ⟨-, hes⟩ | ⟨pre, x, post, -, -, -, hover⟩ := hcase
    · obtain ⟨rfl, -⟩ := hall.unique hes
      by_cases hnil : survivors (adds ++ [(jsonMetaRoot, some (.uint (rootType v)))]) = []
      · rw [hnil] at hkeys
        have hempty : es.map Entry.key = [] :=
          List.eq_nil_iff_forall_not_mem.mpr fun k hk => by simpa using (hkeys k).mp hk
        rw [hempty, List.nil_perm] at hnames
        have hlength := (valueAdds_leaves hadds).length_eq
        rw [leaves_eq_nil_of_topNames hread hnames, List.length_nil, List.length_eq_zero_iff] at hlength
        rw [hlength, survivors_eq_self (by simp)] at hnil
        simp at hnil
      · exact hmeta ((hkeys _).mpr (jsonMetaRoot_mem_survivors hnil))
    · exact absurd (hall.unique hover).2 (by simp)

end Documents

/-- The array `[[null,null]]`. -/
def pairTree : Tree := .arr [.arr [.null, .null]]

def pairText : List UInt8 :=
  [openBracket, openBracket] ++ nullWord ++ comma :: (nullWord ++ [closeBracket, closeBracket])

theorem readsDoc_pair : ReadsDoc tolerant pairTree pairText [] := by
  have hnil : IsSpaces [] := by simp [IsSpaces]
  have hvalues : Reads tolerant (.elements [.null, .null])
      ([] ++ (nullWord ++ ([] ++ comma :: ([] ++ (nullWord ++ ([] ++ closeBracket :: [closeBracket]))))))
      [closeBracket] :=
    .element hnil hnil (.null _) (.lastElement hnil hnil (.null _))
  have houter : Reads tolerant (.elements [.arr [.null, .null]])
      ([] ++ openBracket :: ([] ++ (nullWord ++ ([] ++ comma :: ([] ++ (nullWord ++
        ([] ++ closeBracket :: [closeBracket]))))))) [] :=
    .lastElement hnil hnil (.arr hvalues)
  exact ⟨[], _, rfl, hnil, .arr houter, trivial⟩

theorem exists_encode_pair : ∃ buf j, jsonEncode (fun _ => 0) (.keepingLast ⟨[], .null⟩) pairText = .ok buf ∧
    jsonOpen buf = .ok j ∧ jsonCount j = 2 := by
  have hrun : ((jsonEncode (fun _ => 0) (.keepingLast ⟨[], .null⟩) pairText >>= jsonOpen).map jsonCount).toOption =
      some 2 := by
    decide +kernel
  rcases hencode : jsonEncode (fun _ => 0) (.keepingLast ⟨[], .null⟩) pairText with e | buf
  · simp [hencode, bind, Except.bind, Except.map, Except.toOption] at hrun
  rcases hopen : jsonOpen buf with e | j
  · simp [hencode, hopen, bind, Except.bind, Except.map, Except.toOption] at hrun
  refine ⟨buf, j, rfl, hopen, ?_⟩
  simpa [hencode, hopen, bind, Except.bind, Except.map, Except.toOption] using hrun

theorem not_enumeratesTop_oneKey : ∃ buf,
    jsonEncode (fun _ => 0) (.keepingLast ⟨[], .null⟩) (oneKeyText 1) = .ok buf ∧
      ¬ EnumeratesTop (oneKeyTree 1) buf := by
  have hrun : (jsonEncode (fun _ => 0) (.keepingLast ⟨[], .null⟩) (oneKeyText 1)).toBool = true := by
    decide +kernel
  rcases hencode : jsonEncode (fun _ => 0) (.keepingLast ⟨[], .null⟩) (oneKeyText 1) with e | buf
  · simp [hencode, Except.toBool] at hrun
  exact ⟨buf, rfl, not_enumeratesTop
    (readsDoc_oneKey (show tolerant.char (.raw 0x61) from ⟨by decide, by decide⟩) 1) hencode⟩

/-- The two elements of the inner array are counted. -/
theorem not_enumeratesTop_pair : ∃ buf, ReadsDoc tolerant pairTree pairText [] ∧
    jsonEncode (fun _ => 0) (.keepingLast ⟨[], .null⟩) pairText = .ok buf ∧ ¬ EnumeratesTop pairTree buf := by
  obtain ⟨buf, j, hencode, hopen, htwo⟩ := exists_encode_pair
  refine ⟨buf, readsDoc_pair, hencode, ?_⟩
  rintro ⟨j', es, hopen', hcount, -⟩
  obtain rfl : j = j' := Except.ok.inj (hopen.symm.trans hopen')
  rw [htwo] at hcount
  simp [pairTree, topNames] at hcount

end Triepack
