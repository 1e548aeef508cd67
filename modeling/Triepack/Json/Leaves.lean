import Triepack.Json.IndexOrder
import Triepack.Json.Paths

/-!
# Leaves of what is emitted

A leaf is read at the path that leads to it, elements at their positions. Segments of keys are
either names, which end in front of a separator, or begin with a bracket.
-/

namespace Triepack

open JsonText Json

/-! ## Segments in front of more text -/

theorem isPrefix_nextSegment (key : List UInt8) : nextSegment key <+: key := by
  cases key with
  | nil => exact List.prefix_refl _
  | cons c rest =>
    rw [nextSegment]
    split_ifs with hc
    · have hsplit := List.takeWhile_append_dropWhile (p := (· != closeBracket)) (l := rest)
      refine ⟨(rest.dropWhile (· != closeBracket)).drop 1, ?_⟩
      rw [List.cons_append, List.append_assoc, List.take_append_drop, hsplit]
    · exact List.takeWhile_prefix _

theorem nextSegment_eq_nil_iff {key : List UInt8} :
    nextSegment key = [] ↔ key = [] ∨ key.head? = some point := by
  cases key with
  | nil => simp [nextSegment]
  | cons c rest =>
    rw [nextSegment]
    split_ifs with hc
    · subst hc
      simp [point, openBracket]
    · simp [inSegment, List.takeWhile_cons, hc]

/-- A name ends in front of a separator. -/
theorem nextSegment_name {seg rest : List UInt8} (hne : seg ≠ []) (hseg : ∀ b ∈ seg, inSegment b = true)
    (hrest : ∀ b ∈ rest.head?, inSegment b = false) : nextSegment (seg ++ rest) = seg := by
  obtain ⟨c, seg, rfl⟩ := List.exists_cons_of_ne_nil hne
  have hc : c ≠ openBracket := by
    rintro rfl
    exact absurd (hseg _ List.mem_cons_self) (by decide)
  rw [List.cons_append, nextSegment, if_neg hc, ← List.cons_append, List.takeWhile_append_of_pos hseg]
  cases rest with
  | nil => simp
  | cons b rest => simp [hrest b rfl]

/-- A segment in brackets ends with them. -/
theorem nextSegment_closed {body : List UInt8} (hbody : ∀ b ∈ body, (b != closeBracket) = true)
    (rest : List UInt8) : nextSegment (openBracket :: (body ++ closeBracket :: rest)) =
      openBracket :: (body ++ [closeBracket]) := by
  rw [nextSegment, if_pos rfl, List.takeWhile_append_of_pos hbody, List.dropWhile_append_of_pos hbody]
  simp

/-- A bracket that is not closed goes to the end. -/
theorem nextSegment_open {body : List UInt8} (hbody : ∀ b ∈ body, (b != closeBracket) = true) {rest : List UInt8}
    (h : nextSegment (openBracket :: (body ++ rest)) = openBracket :: body) : rest = [] := by
  rw [nextSegment, if_pos rfl, List.takeWhile_append_of_pos hbody, List.dropWhile_append_of_pos hbody] at h
  cases rest with
  | nil => rfl
  | cons b rest =>
    by_cases hb : b = closeBracket
    · subst hb
      simp at h
    · simp [hb] at h

/-- What a segment may be. -/
inductive SegKind (seg : List UInt8) : Prop
  | name (hseg : ∀ b ∈ seg, inSegment b = true)
  | closed (body : List UInt8) (hbody : ∀ b ∈ body, (b != closeBracket) = true)
      (heq : seg = openBracket :: (body ++ [closeBracket]))
  | unclosed (body : List UInt8) (hbody : ∀ b ∈ body, (b != closeBracket) = true)
      (heq : seg = openBracket :: body)

theorem segKind_nextSegment (key : List UInt8) (h : nextSegment key ≠ []) : SegKind (nextSegment key) := by
  cases key with
  | nil => simp [nextSegment] at h
  | cons c rest =>
    rw [nextSegment] at h ⊢
    split_ifs at h ⊢ with hc
    · subst hc
      have hbody : ∀ b ∈ rest.takeWhile (· != closeBracket), (b != closeBracket) = true :=
        fun b hb => List.mem_takeWhile_imp (p := (· != closeBracket)) hb
      cases hdrop : rest.dropWhile (· != closeBracket) with
      | nil => exact .unclosed _ hbody (by simp)
      | cons b more =>
        have hb : b = closeBracket := by
          have hnot := List.head?_dropWhile_not (· != closeBracket) rest
          rw [hdrop] at hnot
          simpa using hnot
        subst hb
        exact .closed _ hbody (by simp)
    · exact .name fun b hb => List.mem_takeWhile_imp hb

/-! ## Leaves -/

namespace Emitted

/-- The segment that a child of a tree is at. -/
def childSeg (isArray : Bool) (seg : List UInt8) (i : Nat) : Seg (List UInt8) :=
  if isArray then .idx i else .key seg

mutual

/-- The leaves with the paths that they are read at, an element at its position. A container
without children is a leaf without an entry, as is a null that stands for none. -/
def leaves : Emitted → List UInt8 → List (List UInt8 × Option FlatEntry)
  | .value e, path => [(path, some e)]
  | .null, path => [(path, none)]
  | .container isArray cs, path =>
    if cs.isEmpty then [(path, none)] else childLeaves isArray cs path 0

/-- The leaves of the children from a position on. -/
def childLeaves (isArray : Bool) :
    List (List UInt8 × Emitted) → List UInt8 → Nat → List (List UInt8 × Option FlatEntry)
  | [], _, _ => []
  | (seg, t) :: cs, path, i =>
    leaves t (pushSeg path (childSeg isArray seg i)) ++ childLeaves isArray cs path (i + 1)

end

mutual

/-- The children of every container stand for distinct segments. -/
def Distinct : Emitted → Prop
  | .value _ | .null => True
  | .container _ cs => (cs.map Prod.fst).Nodup ∧ ChildrenDistinct cs

def ChildrenDistinct : List (List UInt8 × Emitted) → Prop
  | [] => True
  | (_, t) :: cs => Distinct t ∧ ChildrenDistinct cs

end

theorem childrenDistinct_iff {cs : List (List UInt8 × Emitted)} :
    ChildrenDistinct cs ↔ ∀ c ∈ cs, c.2.Distinct := by
  induction cs with
  | nil => simp [ChildrenDistinct]
  | cons c cs ih => rw [ChildrenDistinct, ih, List.forall_mem_cons]

theorem mem_childLeaves {isArray : Bool} {cs : List (List UInt8 × Emitted)} {path : List UInt8} {i : Nat}
    {l : List UInt8 × Option FlatEntry} :
    l ∈ childLeaves isArray cs path i ↔ ∃ j, ∃ h : j < cs.length,
      l ∈ (cs[j]).2.leaves (pushSeg path (childSeg isArray (cs[j]).1 (i + j))) := by
  induction cs generalizing i with
  | nil => simp [childLeaves]
  | cons c cs ih =>
    rw [childLeaves, List.mem_append, ih]
    constructor
    · rintro (hl | ⟨j, hj, hl⟩)
      · exact ⟨0, by simp, hl⟩
      · exact ⟨j + 1, by simpa using hj, by simpa [Nat.add_assoc, Nat.add_comm 1] using hl⟩
    · rintro ⟨j, hj, hl⟩
      cases j with
      | zero => exact .inl hl
      | succ j =>
        exact .inr ⟨j, by simpa using hj, by simpa [Nat.add_assoc, Nat.add_comm 1] using hl⟩

theorem leaves_container {isArray : Bool} {cs : List (List UInt8 × Emitted)} (h : cs ≠ [])
    (path : List UInt8) : (container isArray cs).leaves path = childLeaves isArray cs path 0 := by
  rw [leaves, if_neg (by simpa using h)]

/-- Every tree has a leaf. -/
theorem leaves_ne_nil (t : Emitted) (path : List UInt8) : t.leaves path ≠ [] := by
  induction t using induction_on generalizing path with
  | value e => simp [leaves]
  | null => simp [leaves]
  | container isArray cs ih =>
    cases cs with
    | nil => simp [leaves]
    | cons c cs =>
      rw [leaves_container (List.cons_ne_nil _ _), childLeaves]
      exact List.append_ne_nil_of_left_ne_nil (ih c List.mem_cons_self _) _

theorem exists_sep_pushSeg {path : List UInt8} (h : path ≠ []) (s : Seg (List UInt8)) :
    ∃ b rest, pushSeg path s = path ++ b :: rest ∧ inSegment b = false := by
  cases s with
  | key k => exact ⟨point, k, by rw [pushSeg, if_pos (List.length_pos_iff.mpr h)], by decide⟩
  | idx i => exact ⟨openBracket, decimal i ++ [closeBracket], rfl, by decide⟩

/-- A leaf is the whole tree, or its path goes on by a segment. -/
theorem path_leaves {t : Emitted} {path : List UInt8} {l : List UInt8 × Option FlatEntry}
    (h : l ∈ t.leaves path) : t.leaves path = [(path, l.2)] ∧ l.1 = path ∨ ∃ s, pushSeg path s <+: l.1 := by
  induction t using induction_on generalizing path with
  | value e =>
    obtain rfl := List.mem_singleton.mp h
    exact .inl ⟨rfl, rfl⟩
  | null =>
    obtain rfl := List.mem_singleton.mp h
    exact .inl ⟨rfl, rfl⟩
  | container isArray cs ih =>
    by_cases hcs : cs = []
    · subst hcs
      obtain rfl := List.mem_singleton.mp h
      exact .inl ⟨rfl, rfl⟩
    · rw [leaves_container hcs] at h
      obtain ⟨j, hj, hl⟩ := mem_childLeaves.mp h
      refine .inr ⟨childSeg isArray (cs[j]).1 (0 + j), ?_⟩
      obtain ⟨-, heq⟩ | ⟨s, hs⟩ := ih _ (List.getElem_mem hj) hl
      · rw [heq]
      · exact (isPrefix_pushSeg _ s).trans hs

theorem isPrefix_path {t : Emitted} {path : List UInt8} {l : List UInt8 × Option FlatEntry}
    (h : l ∈ t.leaves path) : path <+: l.1 := by
  obtain ⟨-, heq⟩ | ⟨s, hs⟩ := path_leaves h
  · rw [heq]
  · exact (isPrefix_pushSeg path s).trans hs

/-- Behind the path of a tree, a leaf goes on with a separator. -/
theorem exists_path_eq {t : Emitted} {path : List UInt8} {l : List UInt8 × Option FlatEntry}
    (h : l ∈ t.leaves path) (hne : path ≠ []) :
    ∃ rest, l.1 = path ++ rest ∧ ∀ b ∈ rest.head?, inSegment b = false := by
  obtain ⟨-, heq⟩ | ⟨s, rest, hs⟩ := path_leaves h
  · exact ⟨[], by simp [heq], by simp⟩
  · obtain ⟨b, more, hpush, hb⟩ := exists_sep_pushSeg hne s
    refine ⟨b :: (more ++ rest), ?_, by simpa using hb⟩
    rw [← hs, hpush, List.append_assoc, List.cons_append]

end Emitted

/-! ## Entries of a tree -/

section Entries

variable {es : List FlatEntry} {pre : List UInt8} {t : Emitted}

theorem findLeaf_eq_some {key : List UInt8} {e : FlatEntry} (h : findLeaf es key = some e) :
    e ∈ es ∧ e.key = key ∧ IsPlain e.key := by
  have hfound := List.find?_some h
  exact ⟨List.mem_of_find?_eq_some h, by simpa using hfound⟩

/-- The entries in a tree begin with its prefix. -/
theorem Emits.isPrefix_key (h : Emits es pre t) {path : List UInt8} {l : List UInt8 × Option FlatEntry}
    (hl : l ∈ t.leaves path) {e : FlatEntry} (he : l.2 = some e) :
    e ∈ es ∧ pre <+: e.key ∧ IsPlain e.key ∧ (pre.length < pathSize → e.key.length < pathSize) := by
  induction h generalizing path with
  | value hkeys hleaf =>
    obtain rfl := List.mem_singleton.mp hl
    obtain rfl := Option.some.inj he
    obtain ⟨hmem, rfl, hplain⟩ := findLeaf_eq_some hleaf
    exact ⟨hmem, List.prefix_refl _, hplain, id⟩
  | null hkeys hleaf =>
    obtain rfl := List.mem_singleton.mp hl
    simp at he
  | @container pre cs hkeys hsegs hroom hchild ih =>
    by_cases hcs : cs = []
    · subst hcs
      obtain rfl := List.mem_singleton.mp hl
      simp at he
    · rw [Emitted.leaves_container hcs] at hl
      obtain ⟨j, hj, hl⟩ := Emitted.mem_childLeaves.mp hl
      have hc := List.getElem_mem hj
      obtain ⟨hmem, hpre, hplain, hlen⟩ := ih _ hc hl
      exact ⟨hmem, (isPrefix_childPrefix _ _ _).trans hpre, hplain, fun _ => hlen (hroom _ hc)⟩

/-- A tree that is a single entry stands where no key goes on. -/
theorem Emits.keysBehind_eq_nil (h : Emits es pre t) {path : List UInt8} (hne : path ≠ []) {e : FlatEntry}
    (hl : t.leaves path = [(path, some e)]) : keysBehind es pre = [] := by
  cases h with
  | value hkeys => exact hkeys
  | null hkeys => exact hkeys
  | @container _ cs =>
    by_cases hcs : cs = []
    · subst hcs
      simp [Emitted.leaves] at hl
    · rw [Emitted.leaves_container hcs] at hl
      have hmem : (path, some e) ∈ Emitted.childLeaves (isArrayLevel es pre) cs path 0 := by simp [hl]
      obtain ⟨j, hj, hleaf⟩ := Emitted.mem_childLeaves.mp hmem
      obtain ⟨b, rest, hpush, -⟩ := Emitted.exists_sep_pushSeg hne
        (Emitted.childSeg (isArrayLevel es pre) (cs[j]).1 (0 + j))
      have hle : _ ≤ path.length := (Emitted.isPrefix_path hleaf).length_le
      rw [hpush, List.length_append, List.length_cons] at hle
      omega

end Entries

end Triepack
