import Triepack.Json.Accept

/-!
# Flattening

A leaf is stored under the text of its position: keys behind points, indices in brackets. The
parser makes the additions of the flattened document, as long as the texts fit its buffers.
-/

namespace Triepack

open JsonText Json

/-- A path with one more segment. -/
def pushSeg (path : List UInt8) : Seg (List UInt8) → List UInt8
  | .key k => if path.length > 0 then path ++ point :: k else k
  | .idx i => path ++ indexText i

/-- The text of a position below a path. -/
def pathText (path : List UInt8) (pos : List (Seg (List UInt8))) : List UInt8 := pos.foldl pushSeg path

/-- The value that is stored for a scalar. -/
def scalarValue (strtod : List UInt8 → UInt64) : Json (List UInt8) NumLit → Value (List UInt8)
  | .bool b => .bool b
  | .num n => numLitValue strtod n
  | .str s => .string s
  | _ => .null

/-- The addition for a leaf below a path. -/
def leafAddition (strtod : List UInt8 → UInt64) (path : List UInt8)
    (l : List (Seg (List UInt8)) × Json (List UInt8) NumLit) : Addition :=
  (pathText path l.1, some (scalarValue strtod l.2))

/-- Every leaf under the text of its position. -/
def flatten (strtod : List UInt8 → UInt64) (v : Json (List UInt8) NumLit) : List Addition :=
  v.leaves.map (leafAddition strtod [])

theorem isPrefix_pushSeg (path : List UInt8) (s : Seg (List UInt8)) : path <+: pushSeg path s := by
  cases s with
  | key k =>
    rw [pushSeg]
    split_ifs with h
    · exact List.prefix_append ..
    · obtain rfl : path = [] := List.length_eq_zero_iff.mp (by omega)
      exact List.nil_prefix
  | idx i => exact List.prefix_append ..

theorem isPrefix_pathText (path : List UInt8) (pos : List (Seg (List UInt8))) :
    path <+: pathText path pos := by
  induction pos generalizing path with
  | nil => exact List.prefix_refl _
  | cons s pos ih => exact (isPrefix_pushSeg path s).trans (ih _)

theorem pushKey_eq {path key : List UInt8} (h : (pushSeg path (.key key)).length < pathSize) :
    pushKey path key = pushSeg path (.key key) := by
  rw [pushSeg] at h ⊢
  rw [pushKey]
  by_cases hpath : path.length > 0
  · rw [if_pos hpath] at h ⊢
    have hlen : (path ++ [point]).length + key.length = (path ++ point :: key).length := by
      simp only [List.length_append, List.length_cons, List.length_nil]
      omega
    simp only [if_pos hpath, hlen, if_pos h, List.append_assoc, List.cons_append, List.nil_append]
  · obtain rfl : path = [] := List.length_eq_zero_iff.mp (by omega)
    rw [if_neg hpath] at h ⊢
    simpa using fun hle => absurd h (Nat.not_lt.mpr hle)

theorem pushIndex_eq {path : List UInt8} {i : Nat} (h : (pushSeg path (.idx i)).length < pathSize) :
    pushIndex path i = pushSeg path (.idx i) := by
  rw [pushSeg, List.length_append] at h
  rw [pushIndex, if_pos h, pushSeg]

/-! ## Additions and leaves -/

section Adds

variable {strtod : List UInt8 → UInt64}

theorem checkedStr_eq_ok {size : Nat} {s : List StrChar} {str : List UInt8}
    (h : checkedStr size s = .ok str) : str = strBytes s ∧ (strBytes s).length < size := by
  rw [checkedStr] at h
  split_ifs at h with hlt
  exact ⟨(Except.ok.inj h).symm, hlt⟩

theorem except_bind_eq_ok {α β : Type} {x : Except Stop α} {f : α → Except Stop β} {b : β}
    (h : (x >>= f) = .ok b) : ∃ a, x = .ok a ∧ f a = .ok b := by
  rcases x with e | a
  · simp [bind, Except.bind] at h
  · exact ⟨a, rfl, h⟩

theorem except_ok_bind {α β : Type} (a : α) (f : α → Except Stop β) :
    ((.ok a : Except Stop α) >>= f) = f a := rfl

theorem elementAdds_cons_eq_ok {v : Tree} {vs : List Tree} {depth idx : Nat} {path : List UInt8}
    {adds : List Addition} (h : elementAdds strtod (v :: vs) depth path idx = .ok adds) :
    ∃ as bs, adds = as ++ bs ∧ (pushIndex path idx).length < pathSize ∧
      valueAdds strtod v depth (pushIndex path idx) = .ok as ∧
      elementAdds strtod vs depth path (u32 (idx + 1)) = .ok bs := by
  rw [elementAdds] at h
  obtain ⟨sub, hsub, h₁⟩ := except_bind_eq_ok h
  obtain ⟨as, has, h₂⟩ := except_bind_eq_ok h₁
  obtain ⟨bs, hbs, h₃⟩ := except_bind_eq_ok h₂
  obtain ⟨rfl, hlt⟩ := checkedPath_eq_ok hsub
  exact ⟨as, bs, (Except.ok.inj h₃).symm, hlt, has, hbs⟩

theorem memberAdds_cons_eq_ok {k : List StrChar} {v : Tree} {ms : List (List StrChar × Tree)}
    {depth : Nat} {path : List UInt8} {adds : List Addition}
    (h : memberAdds strtod ((k, v) :: ms) depth path = .ok adds) :
    ∃ as bs, adds = as ++ bs ∧ (strBytes k).length < keySize ∧
      (pushKey path (strBytes k)).length < pathSize ∧
      valueAdds strtod v depth (pushKey path (strBytes k)) = .ok as ∧
      memberAdds strtod ms depth path = .ok bs := by
  rw [memberAdds] at h
  obtain ⟨key, hkey, h₁⟩ := except_bind_eq_ok h
  obtain ⟨sub, hsub, h₂⟩ := except_bind_eq_ok h₁
  obtain ⟨as, has, h₃⟩ := except_bind_eq_ok h₂
  obtain ⟨bs, hbs, h₄⟩ := except_bind_eq_ok h₃
  obtain ⟨rfl, hkeylt⟩ := checkedStr_eq_ok hkey
  obtain ⟨rfl, hlt⟩ := checkedPath_eq_ok hsub
  exact ⟨as, bs, (Except.ok.inj h₄).symm, hkeylt, hlt, has, hbs⟩

/-- The leaves of a value below a path. -/
def leafAdditions (strtod : List UInt8 → UInt64) (path : List UInt8)
    (ls : List (List (Seg (List UInt8)) × Json (List UInt8) NumLit)) : List Addition :=
  ls.map (leafAddition strtod path)

theorem leafAdditions_cons (path : List UInt8) (s : Seg (List UInt8))
    (ls : List (List (Seg (List UInt8)) × Json (List UInt8) NumLit)) :
    leafAdditions strtod path (ls.map fun l => (s :: l.1, l.2)) =
      leafAdditions strtod (pushSeg path s) ls := by
  rw [leafAdditions, leafAdditions, List.map_map]
  rfl

theorem leafAdditions_append (path : List UInt8)
    (as bs : List (List (Seg (List UInt8)) × Json (List UInt8) NumLit)) :
    leafAdditions strtod path (as ++ bs) = leafAdditions strtod path as ++ leafAdditions strtod path bs :=
  List.map_append

/-- The leaves fit: their paths and their indices are stored as they are. -/
def LeavesFit (path : List UInt8) (ls : List (List (Seg (List UInt8)) × Json (List UInt8) NumLit)) : Prop :=
  ∀ l ∈ ls, (pathText path l.1).length < pathSize ∧ ∀ i, .idx i ∈ l.1 → i < 2 ^ 32

/-- What the additions for a part of a tree have to do with its leaves: there is one for each, no
stored path is longer than the buffer, and when the leaves fit they are what is added. -/
structure AddsLeaves (strtod : List UInt8 → UInt64) (path : List UInt8) (adds : List Addition)
    (ls : List (List (Seg (List UInt8)) × Json (List UInt8) NumLit)) : Prop where
  length_eq : adds.length = ls.length
  length_lt : path.length < pathSize → ∀ a ∈ adds, a.1.length < pathSize
  eq_of_fit : LeavesFit path ls → adds = leafAdditions strtod path ls

/-- The additions for a child at a path that was pushed, and those behind it. -/
theorem AddsLeaves.cons {path sub : List UInt8} {s : Seg (List UInt8)} {as bs : List Addition}
    {ls more : List (List (Seg (List UInt8)) × Json (List UInt8) NumLit)}
    (hsub : sub.length < pathSize) (has : AddsLeaves strtod sub as ls)
    (hpush : (pushSeg path s).length < pathSize → (∀ i, s = .idx i → i < 2 ^ 32) → sub = pushSeg path s)
    (hbs : AddsLeaves strtod path bs more) :
    AddsLeaves strtod path (as ++ bs) (ls.map (fun l => (s :: l.1, l.2)) ++ more) where
  length_eq := by
    rw [List.length_append, List.length_append, List.length_map, has.length_eq, hbs.length_eq]
  length_lt hpath a ha := by
    rcases List.mem_append.mp ha with ha | ha
    · exact has.length_lt hsub a ha
    · exact hbs.length_lt hpath a ha
  eq_of_fit hfit := by
    obtain ⟨hls, hmore⟩ := List.forall_mem_append.mp hfit
    rw [leafAdditions_append, leafAdditions_cons, hbs.eq_of_fit hmore]
    congr 1
    cases hnil : ls with
    | nil =>
      have hzero : as.length = 0 := by rw [has.length_eq, hnil, List.length_nil]
      rw [List.length_eq_zero_iff.mp hzero]
      rfl
    | cons l ls' =>
      -- a leaf below the segment says that the segment was stored
      have hl := hls _ (List.mem_map_of_mem (hnil ▸ List.mem_cons_self))
      have hshort := ((isPrefix_pathText (pushSeg path s) l.1).length_le).trans_lt hl.1
      obtain rfl := hpush hshort fun i hi => hl.2 i (by rw [hi]; exact List.mem_cons_self)
      rw [← hnil]
      refine has.eq_of_fit fun x hx => ?_
      have hx' := hls _ (List.mem_map_of_mem hx)
      exact ⟨hx'.1, fun i hi => hx'.2 i (List.mem_cons_of_mem _ hi)⟩

theorem AddsLeaves.nil {path : List UInt8} : AddsLeaves strtod path [] [] where
  length_eq := rfl
  length_lt _ := by simp
  eq_of_fit _ := rfl

theorem elementAdds_leaves {vs : List Tree}
    (ih : ∀ v ∈ vs, ∀ {depth : Nat} {path : List UInt8} {adds : List Addition},
      valueAdds strtod v depth path = .ok adds → AddsLeaves strtod path adds v.denote.leaves)
    {depth i : Nat} {path : List UInt8} {adds : List Addition}
    (h : elementAdds strtod vs depth path (u32 i) = .ok adds) :
    AddsLeaves strtod path adds (elementLeaves (mapElements strBytes id vs) i) := by
  induction vs generalizing i adds with
  | nil =>
    obtain rfl : [] = adds := by simpa [elementAdds] using h
    exact .nil
  | cons v vs ihvs =>
    obtain ⟨as, bs, rfl, hsub, has, hbs⟩ := elementAdds_cons_eq_ok h
    have hnext : u32 (u32 i + 1) = u32 (i + 1) := by simp only [u32, Nat.mod_add_mod]
    rw [hnext] at hbs
    refine AddsLeaves.cons hsub (ih v (by simp) has) (fun hlt hi => ?_)
      (ihvs (fun v hv => ih v (by simp [hv])) hbs)
    rw [u32_of_lt (hi i rfl)]
    exact pushIndex_eq hlt

theorem memberAdds_leaves {ms : List (List StrChar × Tree)}
    (ih : ∀ m ∈ ms, ∀ {depth : Nat} {path : List UInt8} {adds : List Addition},
      valueAdds strtod m.2 depth path = .ok adds → AddsLeaves strtod path adds m.2.denote.leaves)
    {depth : Nat} {path : List UInt8} {adds : List Addition}
    (h : memberAdds strtod ms depth path = .ok adds) :
    AddsLeaves strtod path adds (memberLeaves (mapMembers strBytes id ms)) := by
  induction ms generalizing adds with
  | nil =>
    obtain rfl : [] = adds := by simpa [memberAdds] using h
    exact .nil
  | cons m ms ihms =>
    obtain ⟨k, v⟩ := m
    obtain ⟨as, bs, rfl, _, hsub, has, hbs⟩ := memberAdds_cons_eq_ok h
    exact AddsLeaves.cons hsub (ih (k, v) (by simp) has) (fun hlt _ => pushKey_eq hlt)
      (ihms (fun m hm => ih m (by simp [hm])) hbs)

/-- The additions for a tree and its leaves. -/
theorem valueAdds_leaves {v : Tree} {depth : Nat} {path : List UInt8} {adds : List Addition}
    (h : valueAdds strtod v depth path = .ok adds) : AddsLeaves strtod path adds v.denote.leaves := by
  induction v using Json.induction_on generalizing depth path adds with
  | null =>
    obtain rfl : [(path, some .null)] = adds := by simpa [valueAdds] using h
    exact ⟨rfl, by simp, fun _ => rfl⟩
  | bool b =>
    obtain rfl : [(path, some (.bool b))] = adds := by simpa [valueAdds] using h
    exact ⟨rfl, by simp, fun _ => rfl⟩
  | num n =>
    obtain rfl : [(path, some (numLitValue strtod n))] = adds := by simpa [valueAdds] using h
    exact ⟨rfl, by simp, fun _ => rfl⟩
  | str s =>
    rw [valueAdds] at h
    obtain ⟨str, hstr, h₁⟩ := except_bind_eq_ok h
    obtain ⟨rfl, _⟩ := checkedStr_eq_ok hstr
    obtain rfl := Except.ok.inj h₁
    exact ⟨rfl, by simp, fun _ => rfl⟩
  | arr vs ih =>
    rw [valueAdds] at h
    split_ifs at h
    exact elementAdds_leaves (fun v hv => ih v hv) (i := 0) h
  | obj ms ih =>
    rw [valueAdds] at h
    split_ifs at h
    exact memberAdds_leaves (fun m hm => ih m hm) h

end Adds

end Triepack
