import Triepack.Json.Flatten

/-!
# The buffers of the JSON encoder

`parse_string_into` goes on counting behind the end of its buffer, and its callers write a
terminator where the count points. A path segment that does not fit is dropped.
-/

namespace Triepack

open JsonText Json

mutual

/-- What is read of a value at a depth and a path leaves room for its terminators: strings and
keys are shorter than their buffers, and no member is met while the path buffer is full. Behind a
container that is nested too deeply nothing is read. -/
def Fits (depth : Nat) (path : List UInt8) : Tree → Prop
  | .null | .bool _ | .num _ => True
  | .str s => (strBytes s).length < strSize
  | .arr vs => depth + 1 ≤ maxNestingDepth → ElementsFit (depth + 1) path 0 vs
  | .obj ms => depth + 1 ≤ maxNestingDepth → MembersFit (depth + 1) path ms

def ElementsFit (depth : Nat) (path : List UInt8) (idx : Nat) : List Tree → Prop
  | [] => True
  | v :: vs => Fits depth (pushIndex path idx) v ∧
      (depth + v.nesting ≤ maxNestingDepth → ElementsFit depth path (u32 (idx + 1)) vs)

def MembersFit (depth : Nat) (path : List UInt8) : List (List StrChar × Tree) → Prop
  | [] => True
  | (k, v) :: ms => (strBytes k).length < keySize ∧ path.length + 1 < pathSize ∧
      Fits depth (pushKey path (strBytes k)) v ∧
      (depth + v.nesting ≤ maxNestingDepth → MembersFit depth path ms)

end

/-- The buffers have room for a document: for what is read of it, and when it is read to its end
also for the paths of its leaves. -/
def HasRoom (v : Tree) : Prop :=
  Fits 0 [] v ∧ (v.nesting ≤ maxNestingDepth → LeavesFit [] v.denote.leaves)

/-- The text of a document is parsed within the buffers, and what is added are its leaves, each
under its whole path and with its whole value. -/
structure KeepsLeaves (strtod : List UInt8 → UInt64) (v : Tree) (text : List UInt8) : Prop where
  inBounds : ∀ i, (parseRoot strtod text (jsonParser text)).1 ≠ .error (.oob i)
  complete : ∀ root p, parseRoot strtod text (jsonParser text) = (.ok root, p) →
    p.enc = added (flatten strtod v.denote)

section Walk

variable {strtod : List UInt8 → UInt64}

theorem length_pushIndex_lt {path : List UInt8} (h : path.length < pathSize) (idx : Nat) :
    (pushIndex path idx).length < pathSize := by
  rw [pushIndex]
  split_ifs with hlt
  · rw [List.length_append]
    exact hlt
  · exact h

/-- A member leaves room on the path unless it was full. -/
theorem length_pushKey_lt_iff {path : List UInt8} (key : List UInt8) :
    (pushKey path key).length < pathSize ↔ path.length + 1 < pathSize := by
  rw [pushKey]
  by_cases hpath : path.length > 0
  · simp only [if_pos hpath]
    split_ifs with hlt
    all_goals simp only [List.length_append, List.length_singleton] at *
    · omega
  · obtain rfl : path = [] := List.length_eq_zero_iff.mp (by omega)
    simp only [if_neg hpath]
    split_ifs with hlt
    all_goals simp only [List.length_nil, List.nil_append, Nat.zero_add, pathSize] at *
    · omega
    · omega

/-- How the parser ends on a part of a tree. -/
structure EndsAs (x : Except Stop (List Addition)) (fits : Prop) (within : Prop) : Prop where
  ok : fits → within → ∃ adds, x = .ok adds
  deep : fits → ¬ within → x = .error (.rc .jsonDepth)
  oob : ¬ fits → ∃ i, x = .error (.oob i)

theorem EndsAs.cons {x more : Except Stop (List Addition)} {fits fitsMore within withinMore : Prop}
    (hx : EndsAs x fits within) (hmore : EndsAs more fitsMore withinMore) :
    EndsAs (do let as ← x; let bs ← more; .ok (as ++ bs)) (fits ∧ (within → fitsMore))
      (within ∧ withinMore) where
  ok hfits hwithin := by
    obtain ⟨as, rfl⟩ := hx.ok hfits.1 hwithin.1
    obtain ⟨bs, rfl⟩ := hmore.ok (hfits.2 hwithin.1) hwithin.2
    exact ⟨as ++ bs, rfl⟩
  deep hfits hwithin := by
    by_cases hfirst : within
    · obtain ⟨as, rfl⟩ := hx.ok hfits.1 hfirst
      rw [hmore.deep (hfits.2 hfirst) fun h => hwithin ⟨hfirst, h⟩]
      rfl
    · rw [hx.deep hfits.1 hfirst]
      rfl
  oob hfits := by
    by_cases hfirst : fits
    · have hrest : within ∧ ¬ fitsMore := by
        by_contra hcon
        exact hfits ⟨hfirst, fun hw => by_contra fun hm => hcon ⟨hw, hm⟩⟩
      obtain ⟨as, rfl⟩ := hx.ok hfirst hrest.1
      obtain ⟨i, hi⟩ := hmore.oob hrest.2
      exact ⟨i, by rw [hi]; rfl⟩
    · obtain ⟨i, hi⟩ := hx.oob hfirst
      exact ⟨i, by rw [hi]; rfl⟩

theorem EndsAs.nil : EndsAs (.ok []) True True :=
  ⟨fun _ _ => ⟨[], rfl⟩, fun _ h => absurd trivial h, fun h => absurd trivial h⟩

theorem EndsAs.congr {x : Except Stop (List Addition)} {fits within fits' within' : Prop}
    (h : EndsAs x fits within) (hfits : fits' ↔ fits) (hwithin : within' ↔ within) :
    EndsAs x fits' within' := by
  rw [propext hfits, propext hwithin]
  exact h

theorem elementAdds_endsAs {vs : List Tree}
    (ih : ∀ v ∈ vs, ∀ (depth : Nat) (path : List UInt8), depth ≤ maxNestingDepth →
      path.length < pathSize →
      EndsAs (valueAdds strtod v depth path) (Fits depth path v) (depth + v.nesting ≤ maxNestingDepth))
    {depth : Nat} {path : List UInt8} (hdepth : depth ≤ maxNestingDepth)
    (hpath : path.length < pathSize) (idx : Nat) :
    EndsAs (elementAdds strtod vs depth path idx) (ElementsFit depth path idx vs)
      (depth + elementNesting vs ≤ maxNestingDepth) := by
  induction vs generalizing idx with
  | nil =>
    rw [elementAdds, ElementsFit, elementNesting]
    exact EndsAs.nil.congr .rfl (iff_true_intro hdepth)
  | cons v vs ihvs =>
    have hsub := length_pushIndex_lt hpath idx
    have hchecked : checkedPath (pushIndex path idx) = .ok (pushIndex path idx) := if_pos hsub
    rw [elementAdds, hchecked, ElementsFit, elementNesting]
    refine EndsAs.congr ((ih v (by simp) depth _ hdepth hsub).cons
      (ihvs (fun v hv => ih v (by simp [hv])) (u32 (idx + 1)))) .rfl ?_
    omega

theorem memberAdds_endsAs {ms : List (List StrChar × Tree)}
    (ih : ∀ m ∈ ms, ∀ (depth : Nat) (path : List UInt8), depth ≤ maxNestingDepth →
      path.length < pathSize →
      EndsAs (valueAdds strtod m.2 depth path) (Fits depth path m.2)
        (depth + m.2.nesting ≤ maxNestingDepth))
    {depth : Nat} {path : List UInt8} (hdepth : depth ≤ maxNestingDepth) :
    EndsAs (memberAdds strtod ms depth path) (MembersFit depth path ms)
      (depth + memberNesting ms ≤ maxNestingDepth) := by
  induction ms with
  | nil =>
    rw [memberAdds, MembersFit, memberNesting]
    exact EndsAs.nil.congr .rfl (iff_true_intro hdepth)
  | cons m ms ihms =>
    obtain ⟨k, v⟩ := m
    rw [memberAdds, MembersFit, memberNesting]
    by_cases hkey : (strBytes k).length < keySize
    · rw [checkedStr, if_pos hkey]
      by_cases hroom : path.length + 1 < pathSize
      · have hsub := (length_pushKey_lt_iff (strBytes k)).mpr hroom
        have hchecked : checkedPath (pushKey path (strBytes k)) = .ok (pushKey path (strBytes k)) :=
          if_pos hsub
        have hall := (ih (k, v) (by simp) depth _ hdepth hsub).cons
          (ihms fun m hm => ih m (by simp [hm]))
        change EndsAs (do let sub ← checkedPath (pushKey path (strBytes k)); _) _ _
        rw [hchecked]
        exact EndsAs.congr hall (by simp [hkey, hroom]) (by simp only; omega)
      · have hchecked : checkedPath (pushKey path (strBytes k)) =
            .error (.oob (pushKey path (strBytes k)).length) :=
          if_neg fun h => hroom ((length_pushKey_lt_iff _).mp h)
        change EndsAs (do let sub ← checkedPath (pushKey path (strBytes k)); _) _ _
        rw [hchecked]
        exact ⟨fun h => absurd h.2.1 hroom, fun h => absurd h.2.1 hroom, fun _ => ⟨_, rfl⟩⟩
    · rw [checkedStr, if_neg hkey]
      exact ⟨fun h => absurd h.1 hkey, fun h => absurd h.1 hkey, fun _ => ⟨_, rfl⟩⟩

/-- How the parser ends on a value. -/
theorem valueAdds_endsAs (v : Tree) (depth : Nat) (path : List UInt8) (hdepth : depth ≤ maxNestingDepth)
    (hpath : path.length < pathSize) :
    EndsAs (valueAdds strtod v depth path) (Fits depth path v)
      (depth + v.nesting ≤ maxNestingDepth) := by
  induction v using Json.induction_on generalizing depth path with
  | null | bool | num =>
    rw [valueAdds, Fits]
    exact ⟨fun _ _ => ⟨_, rfl⟩, fun _ h => absurd hdepth (by simpa [nesting] using h),
      fun h => absurd trivial h⟩
  | str s =>
    rw [valueAdds, Fits, checkedStr]
    split_ifs with hfits
    · exact ⟨fun _ _ => ⟨_, rfl⟩, fun _ h => absurd hdepth (by simpa [nesting] using h),
        fun h => absurd hfits h⟩
    · exact ⟨fun h => absurd h hfits, fun h => absurd h hfits, fun _ => ⟨_, rfl⟩⟩
  | arr vs ih =>
    rw [valueAdds, Fits, nesting]
    split_ifs with hdeep
    · have htoo : ¬ depth + (elementNesting vs + 1) ≤ maxNestingDepth := by omega
      exact ⟨fun _ h => absurd h htoo, fun _ _ => rfl,
        fun h => absurd (fun hle => absurd hle (by omega)) h⟩
    · have hnext : depth + 1 ≤ maxNestingDepth := by omega
      exact EndsAs.congr (elementAdds_endsAs ih hnext hpath 0) (by simp [hnext]) (by omega)
  | obj ms ih =>
    rw [valueAdds, Fits, nesting]
    split_ifs with hdeep
    · have htoo : ¬ depth + (memberNesting ms + 1) ≤ maxNestingDepth := by omega
      exact ⟨fun _ h => absurd h htoo, fun _ _ => rfl,
        fun h => absurd (fun hle => absurd hle (by omega)) h⟩
    · have hnext : depth + 1 ≤ maxNestingDepth := by omega
      exact EndsAs.congr (memberAdds_endsAs ih hnext) (by simp [hnext]) (by omega)

end Walk

/-! ## How many leaves a text has -/

/-- All indices in the positions are below a bound. -/
def IndicesBelow {σ ν : Type} (n : Nat) (ls : List (List (Seg σ) × Json σ ν)) : Prop :=
  ∀ l ∈ ls, ∀ i, .idx i ∈ l.1 → i < n

theorem IndicesBelow.cons {σ ν : Type} {n : Nat} {s : Seg σ} {ls more : List (List (Seg σ) × Json σ ν)}
    (hs : ∀ i, s = .idx i → i < n) (hls : IndicesBelow n ls) (hmore : IndicesBelow n more) :
    IndicesBelow n (ls.map (fun l => (s :: l.1, l.2)) ++ more) := by
  refine List.forall_mem_append.mpr ⟨?_, hmore⟩
  rw [List.forall_mem_map]
  intro l hl i hi
  rcases List.mem_cons.mp hi with hi | hi
  · exact hs i hi.symm
  · exact hls l hl i hi

theorem IndicesBelow.mono {σ ν : Type} {n m : Nat} {ls : List (List (Seg σ) × Json σ ν)}
    (h : IndicesBelow n ls) (hle : n ≤ m) : IndicesBelow m ls :=
  fun l hl i hi => (h l hl i hi).trans_le hle

/-- The leaves of what is read take their place in the text. -/
def LeavesBelow : Part → List UInt8 → List UInt8 → Prop
  | .value v, text, rest =>
    IndicesBelow text.length v.denote.leaves ∧ v.denote.leaves.length + rest.length ≤ text.length
  | .elements vs, text, rest => ∀ i,
    IndicesBelow (i + text.length) (elementLeaves (mapElements strBytes id vs) i) ∧
      (elementLeaves (mapElements strBytes id vs) i).length + rest.length ≤ text.length
  | .members ms, text, rest =>
    IndicesBelow text.length (memberLeaves (mapMembers strBytes id ms)) ∧
      (memberLeaves (mapMembers strBytes id ms)).length + rest.length ≤ text.length

theorem leavesBelow_scalar {v : Tree} {text rest : List UInt8} (hv : v.denote.leaves = [([], v.denote)])
    (h : rest.length < text.length) : LeavesBelow (.value v) text rest := by
  rw [LeavesBelow, hv]
  refine ⟨by simp [IndicesBelow], ?_⟩
  rw [List.length_singleton]
  omega

theorem reads_leavesBelow {L : Lexicon} {part : Part} {text rest : List UInt8}
    (h : Reads L part text rest) : LeavesBelow part text rest := by
  induction h with
  | null rest => exact leavesBelow_scalar rfl (Reads.null (L := L) rest).length_lt
  | boolTrue rest => exact leavesBelow_scalar rfl (Reads.boolTrue (L := L) rest).length_lt
  | boolFalse rest => exact leavesBelow_scalar rfl (Reads.boolFalse (L := L) rest).length_lt
  | num hn rest => exact leavesBelow_scalar rfl (Reads.num hn rest).length_lt
  | str hs rest => exact leavesBelow_scalar rfl (Reads.str hs rest).length_lt
  | emptyArr hw rest =>
    refine ⟨by simp [Json.denote, Json.map, mapElements, leaves, elementLeaves, IndicesBelow], ?_⟩
    exact (Nat.zero_add rest.length).le.trans (Reads.emptyArr (L := L) hw rest).length_lt.le
  | emptyObj hw rest =>
    refine ⟨by simp [Json.denote, Json.map, mapMembers, leaves, memberLeaves, IndicesBelow], ?_⟩
    exact (Nat.zero_add rest.length).le.trans (Reads.emptyObj (L := L) hw rest).length_lt.le
  | arr h ih =>
    obtain ⟨hbelow, hlen⟩ := ih 0
    refine ⟨hbelow.mono ?_, hlen.trans ?_⟩ <;> rw [List.length_cons] <;> omega
  | obj h ih =>
    obtain ⟨hbelow, hlen⟩ := ih
    refine ⟨hbelow.mono ?_, hlen.trans ?_⟩ <;> rw [List.length_cons] <;> omega
  | @lastElement w w' v text rest hw hw' hv ih =>
    intro i
    obtain ⟨hbelow, hlen⟩ := ih
    have htext := hv.length_lt
    simp only [List.length_append, List.length_cons] at hlen htext
    constructor
    · refine IndicesBelow.cons (fun j hj => ?_) (hbelow.mono ?_) (by simp [mapElements, elementLeaves, IndicesBelow])
      · obtain rfl : i = j := Seg.idx.inj hj
        rw [List.length_append]
        omega
      · rw [List.length_append]
        omega
    · simp only [mapElements, elementLeaves, List.length_append, List.length_map, List.length_nil]
      rw [Json.denote] at hlen
      omega
  | @element w w' v vs text text' rest hw hw' hv hvs ihv ih =>
    intro i
    obtain ⟨hbelow, hlen⟩ := ihv
    obtain ⟨hmore, hmorelen⟩ := ih (i + 1)
    have htext := hv.length_lt
    simp only [List.length_append, List.length_cons] at hlen htext
    constructor
    · refine IndicesBelow.cons (fun j hj => ?_) (hbelow.mono ?_) (hmore.mono ?_)
      · obtain rfl : i = j := Seg.idx.inj hj
        rw [List.length_append]
        omega
      · rw [List.length_append]
        omega
      · rw [List.length_append]
        omega
    · simp only [mapElements, elementLeaves, List.length_append, List.length_map]
      rw [Json.denote] at hlen
      omega
  | @lastMember w₁ w₂ w₃ w' k v text rest hw₁ hk hw₂ hw₃ hw' hv ih =>
    obtain ⟨hbelow, hlen⟩ := ih
    simp only [List.length_append, List.length_cons] at hlen
    constructor
    · refine IndicesBelow.cons (fun j hj => by simp at hj) (hbelow.mono ?_)
        (by simp [mapMembers, memberLeaves, IndicesBelow])
      simp only [strTail, List.length_append, List.length_cons]
      omega
    · simp only [mapMembers, memberLeaves, List.length_append, List.length_map, List.length_nil, strTail,
        List.length_cons]
      rw [Json.denote] at hlen
      omega
  | @member w₁ w₂ w₃ w' k v ms text text' rest hw₁ hk hw₂ hw₃ hw' hv hms ihv ih =>
    obtain ⟨hbelow, hlen⟩ := ihv
    obtain ⟨hmore, hmorelen⟩ := ih
    have htext := hv.length_lt
    simp only [List.length_append, List.length_cons] at hlen htext
    constructor
    · refine IndicesBelow.cons (fun j hj => by simp at hj) (hbelow.mono ?_) (hmore.mono ?_) <;>
        simp only [strTail, List.length_append, List.length_cons] <;> omega
    · simp only [mapMembers, memberLeaves, List.length_append, List.length_map, strTail,
        List.length_cons]
      rw [Json.denote] at hlen
      omega

/-! ## Documents -/

section Documents

variable {L : Lexicon} {strtod : List UInt8 → UInt64} {v : Tree} {text rest : List UInt8}

theorem readsDoc_leavesBelow (h : ReadsDoc L v text rest) :
    IndicesBelow text.length v.denote.leaves ∧ v.denote.leaves.length ≤ text.length := by
  obtain ⟨w, body, rfl, _, hread, _⟩ := h
  obtain ⟨hbelow, hlen⟩ := reads_leavesBelow hread
  refine ⟨hbelow.mono ?_, ?_⟩ <;> rw [List.length_append] <;> omega

theorem HasRoom.keepsLeaves (h : ReadsDoc L v text rest) (hroom : HasRoom v) :
    KeepsLeaves strtod v text := by
  obtain ⟨hok, herror⟩ := @parseRoot_of_reads L strtod v text rest h
  have hends := @valueAdds_endsAs strtod v 0 [] (by decide) (by decide)
  rw [Nat.zero_add] at hends
  by_cases hwithin : v.nesting ≤ maxNestingDepth
  · obtain ⟨adds, hadds⟩ := hends.ok hroom.1 hwithin
    rw [(valueAdds_leaves hadds).eq_of_fit (hroom.2 hwithin)] at hadds
    have hrun := hok _ hadds
    refine ⟨fun i hi => by simp [hrun] at hi, fun root p hp => ?_⟩
    rw [hrun] at hp
    rw [← (Prod.mk.inj hp).2]
    rfl
  · have hrun := herror _ (hends.deep hroom.1 hwithin)
    refine ⟨fun i hi => by simp [hrun] at hi, fun root p hp => ?_⟩
    rw [hp] at hrun
    simp at hrun

theorem KeepsLeaves.hasRoom (h : ReadsDoc L v text rest) (hlen : text.length < 2 ^ 32)
    (hkeeps : KeepsLeaves strtod v text) : HasRoom v := by
  obtain ⟨hok, herror⟩ := @parseRoot_of_reads L strtod v text rest h
  obtain ⟨hbelow, hleaves⟩ := readsDoc_leavesBelow h
  have hends := @valueAdds_endsAs strtod v 0 [] (by decide) (by decide)
  rw [Nat.zero_add] at hends
  have hfits : Fits 0 [] v := by
    by_contra hcon
    obtain ⟨i, hi⟩ := hends.oob hcon
    exact hkeeps.inBounds i (herror _ hi)
  refine ⟨hfits, fun hwithin l hl => ⟨?_, fun i hi => (hbelow l hl i hi).trans hlen⟩⟩
  obtain ⟨adds, hadds⟩ := hends.ok hfits hwithin
  have hadd := valueAdds_leaves hadds
  -- the encoder holds what was added and is to hold the leaves
  have hsame := congrArg Encoder.entries (hkeeps.complete _ _ (hok _ hadds))
  have hflatten : (flatten strtod v.denote).length = v.denote.leaves.length := by
    rw [flatten, List.length_map]
  have hentries : adds.map Addition.entry = (flatten strtod v.denote).map Addition.entry := by
    have hcount := hadd.length_eq
    rw [← survivors_eq_self (by omega : adds.length < 2 ^ 32),
      ← survivors_eq_self (by omega : (flatten strtod v.denote).length < 2 ^ 32)]
    rw [← entries_added, ← entries_added]
    exact hsame
  have hmem : (leafAddition strtod [] l).entry ∈ adds.map Addition.entry := by
    rw [hentries, flatten]
    exact List.mem_map_of_mem (List.mem_map_of_mem hl)
  obtain ⟨a, ha, hkey⟩ := List.mem_map.mp hmem
  have hshort := hadd.length_lt (by decide) a ha
  rw [show a.1 = pathText [] l.1 from congrArg Entry.key hkey] at hshort
  exact hshort

/-- The parser stays within its buffers and stores every leaf under its whole path when the
buffers have room for the document, and on a text of less than 4 GiB only then. -/
theorem keepsLeaves_iff_hasRoom (h : ReadsDoc tolerant v text rest) :
    (HasRoom v → KeepsLeaves strtod v text) ∧
      (text.length < 2 ^ 32 → KeepsLeaves strtod v text → HasRoom v) :=
  ⟨HasRoom.keepsLeaves h, KeepsLeaves.hasRoom h⟩

/-- The leaves of a document and the kind of its root. -/
def documentAdditions (strtod : List UInt8 → UInt64) (v : Tree) : List Addition :=
  flatten strtod v.denote ++ [(jsonMetaRoot, some (.uint (rootType v)))]

/-- What an accepted document is built from. -/
theorem encoderBuild_of_encode {q : Qsort} {buf : List UInt8} (h : ReadsDoc L v text rest)
    (hencode : jsonEncode strtod q text = .ok buf) (hroom : HasRoom v) :
    (encoderBuild q (added (documentAdditions strtod v))).1 = .ok buf := by
  have hends := @valueAdds_endsAs strtod v 0 [] (by decide) (by decide)
  have hbuild := hencode
  rw [jsonEncode_of_reads h] at hbuild
  by_cases hdeep : v.nesting ≤ maxNestingDepth
  · obtain ⟨adds, hadds⟩ := hends.ok hroom.1 (by omega)
    rw [documentAdds_ok hadds, (valueAdds_leaves hadds).eq_of_fit (hroom.2 hdeep)] at hbuild
    exact hbuild
  · rw [documentAdds_error (hends.deep hroom.1 (by omega))] at hbuild
    simp at hbuild

end Documents

/-- An object with one member, whose key is a number of letters. -/
def oneKeyTree (n : Nat) : Tree := .obj [(List.replicate n (.raw 0x61), .null)]

def oneKeyText (n : Nat) : List UInt8 :=
  openBrace :: quote ::
    strTail (List.replicate n (.raw 0x61)) (colon :: (nullWord ++ [closeBrace]))

theorem readsDoc_oneKey {L : Lexicon} (hL : L.char (.raw 0x61)) (n : Nat) :
    ReadsDoc L (oneKeyTree n) (oneKeyText n) [] := by
  have hnil : IsSpaces [] := by simp [IsSpaces]
  have hkey : ∀ c ∈ List.replicate n (StrChar.raw 0x61), L.char c := fun c hc => by
    rwa [List.eq_of_mem_replicate hc]
  have hmember : Reads L (.members [(List.replicate n (.raw 0x61), .null)])
      ([] ++ quote :: strTail (List.replicate n (.raw 0x61))
        ([] ++ colon :: ([] ++ (nullWord ++ ([] ++ closeBrace :: []))))) [] :=
    .lastMember hnil hkey hnil hnil hnil (.null _)
  exact ⟨[], _, rfl, hnil, .obj hmember, trivial⟩

theorem length_strBytes_replicate (n : Nat) :
    (strBytes (List.replicate n (.raw 0x61))).length = n := by
  simp [strBytes, StrChar.bytes, List.length_flatMap]

/-- The buffer of a key takes 1023 bytes. -/
theorem hasRoom_oneKey_iff (n : Nat) : HasRoom (oneKeyTree n) ↔ n < keySize := by
  have hfits : Fits 0 [] (oneKeyTree n) ↔ n < keySize := by
    simp [oneKeyTree, Fits, MembersFit, length_strBytes_replicate, maxNestingDepth, pathSize]
  refine ⟨fun h => hfits.mp h.1, fun h => ⟨hfits.mpr h, fun _ l hl => ?_⟩⟩
  obtain rfl : l = ([.key (strBytes (List.replicate n (.raw 0x61)))], .null) := by
    simpa [oneKeyTree, Json.denote, Json.map, mapMembers, leaves, memberLeaves] using hl
  refine ⟨?_, by simp⟩
  simp only [pathText, List.foldl_cons, List.foldl_nil, pushSeg, List.length_nil, Nat.lt_irrefl,
    if_false, length_strBytes_replicate]
  exact h.trans (by decide)

theorem keepsLeaves_oneKey : KeepsLeaves (fun _ => 0) (oneKeyTree 1) (oneKeyText 1) ∧
    HasRoom (oneKeyTree 1) := by
  have h := @keepsLeaves_iff_hasRoom (fun _ => 0) _ _ _
    (readsDoc_oneKey (show tolerant.char (.raw 0x61) from ⟨by decide, by decide⟩) 1)
  have hroom := (hasRoom_oneKey_iff 1).mpr (by decide)
  exact ⟨h.1 hroom, h.2 (by decide) (h.1 hroom)⟩

/-- The terminator of a key of 1024 bytes is written behind its buffer. -/
theorem not_keepsLeaves_longKey :
    ReadsDoc rfc8259 (oneKeyTree 1024) (oneKeyText 1024) [] ∧
      (parseRoot (fun _ => 0) (oneKeyText 1024) (jsonParser (oneKeyText 1024))).1 =
        .error (.oob 1024) ∧
      ¬ KeepsLeaves (fun _ => 0) (oneKeyTree 1024) (oneKeyText 1024) := by
  have hread : ReadsDoc rfc8259 (oneKeyTree 1024) (oneKeyText 1024) [] :=
    readsDoc_oneKey (show rfc8259.char (.raw 0x61) from
      ⟨⟨by decide, by decide⟩, show ¬ (0x61 : UInt8) < 0x20 by decide⟩) 1024
  have hrun : (parseRoot (fun _ => 0) (oneKeyText 1024) (jsonParser (oneKeyText 1024))).1 =
      .error (.oob 1024) := by
    refine (parseRoot_of_reads hread).2 _ ?_
    have hkey : checkedStr keySize (List.replicate 1024 (.raw 0x61)) = .error (.oob 1024) := by
      rw [checkedStr, length_strBytes_replicate]
      rfl
    rw [oneKeyTree, valueAdds, if_neg (by decide), memberAdds, hkey]
    rfl
  exact ⟨hread, hrun, fun h => h.inBounds 1024 hrun⟩

end Triepack
