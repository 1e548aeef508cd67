import Triepack.Json.Decimal
import Triepack.Json.Flatten
import Triepack.Library.JsonUnique

/-!
# Paths

Positions are told from their texts as long as no key is empty or holds a separator.
-/

namespace JsonText.Json

variable {σ ν : Type}

mutual

/-- Every key has a property, and the keys of an object are distinct. -/
def Keyed (P : σ → Prop) : Json σ ν → Prop
  | .arr vs => KeyedElements P vs
  | .obj ms => (∀ m ∈ ms, P m.1) ∧ (ms.map Prod.fst).Nodup ∧ KeyedMembers P ms
  | _ => True

def KeyedElements (P : σ → Prop) : List (Json σ ν) → Prop
  | [] => True
  | v :: vs => Keyed P v ∧ KeyedElements P vs

def KeyedMembers (P : σ → Prop) : List (σ × Json σ ν) → Prop
  | [] => True
  | (_, v) :: ms => Keyed P v ∧ KeyedMembers P ms

end

theorem keyedElements_iff {P : σ → Prop} {vs : List (Json σ ν)} :
    KeyedElements P vs ↔ ∀ v ∈ vs, Keyed P v := by
  induction vs with
  | nil => simp [KeyedElements]
  | cons v vs ih => rw [KeyedElements, ih, List.forall_mem_cons]

theorem keyedMembers_iff {P : σ → Prop} {ms : List (σ × Json σ ν)} :
    KeyedMembers P ms ↔ ∀ m ∈ ms, Keyed P m.2 := by
  induction ms with
  | nil => simp [KeyedMembers]
  | cons m ms ih => rw [KeyedMembers, ih, List.forall_mem_cons]

theorem Keyed.imp {P P' : σ → Prop} (hP : ∀ k, P k → P' k) {v : Json σ ν} (h : v.Keyed P) :
    v.Keyed P' := by
  induction v using Json.induction_on with
  | null | bool | num | str => trivial
  | arr vs ih =>
    rw [Keyed, keyedElements_iff] at h ⊢
    exact fun v hv => ih v hv (h v hv)
  | obj ms ih =>
    obtain ⟨hkeys, hnodup, hms⟩ := h
    rw [keyedMembers_iff] at hms
    exact ⟨fun m hm => hP _ (hkeys m hm), hnodup,
      keyedMembers_iff.mpr fun m hm => ih m hm (hms m hm)⟩

theorem keyed_map {ν' : Type} {P : σ → Prop} {g : ν → ν'} {v : Json σ ν} : (v.map id g).Keyed P ↔ v.Keyed P := by
  induction v using Json.induction_on with
  | null | bool | num | str => rfl
  | arr vs ih =>
    rw [Json.map, Keyed, Keyed, mapElements_eq, keyedElements_iff, keyedElements_iff, List.forall_mem_map]
    exact forall₂_congr ih
  | obj ms ih =>
    rw [Json.map, Keyed, Keyed, mapMembers_eq, keyedMembers_iff, keyedMembers_iff, List.forall_mem_map,
      List.forall_mem_map, List.map_map]
    exact and_congr Iff.rfl (and_congr Iff.rfl (forall₂_congr ih))

def IsScalar : Json σ ν → Prop
  | .arr _ | .obj _ => False
  | _ => True

/-- The keys that a position goes through. -/
def KeysIn (P : σ → Prop) (pos : List (Seg σ)) : Prop := ∀ k, .key k ∈ pos → P k

theorem mem_elementLeaves {vs : List (Json σ ν)} {i : Nat} {l : List (Seg σ) × Json σ ν} :
    l ∈ elementLeaves vs i ↔
      ∃ j, ∃ h : j < vs.length, ∃ l' ∈ (vs[j]).leaves, l = (.idx (i + j) :: l'.1, l'.2) := by
  induction vs generalizing i with
  | nil => simp [elementLeaves]
  | cons v vs ih =>
    rw [elementLeaves, List.mem_append, ih]
    constructor
    · rintro (hl | ⟨j, hj, l', hl', rfl⟩)
      · obtain ⟨l', hl', rfl⟩ := List.mem_map.mp hl
        exact ⟨0, by simp, l', hl', rfl⟩
      · exact ⟨j + 1, by simpa using hj, l', hl', by simp only [Nat.add_assoc, Nat.add_comm 1]⟩
    · rintro ⟨j, hj, l', hl', rfl⟩
      cases j with
      | zero => exact .inl (List.mem_map.mpr ⟨l', hl', rfl⟩)
      | succ j =>
        exact .inr ⟨j, by simpa using hj, l', hl', by simp only [Nat.add_assoc, Nat.add_comm 1]⟩

theorem mem_memberLeaves {ms : List (σ × Json σ ν)} {l : List (Seg σ) × Json σ ν} :
    l ∈ memberLeaves ms ↔ ∃ m ∈ ms, ∃ l' ∈ m.2.leaves, l = (.key m.1 :: l'.1, l'.2) := by
  induction ms with
  | nil => simp [memberLeaves]
  | cons m ms ih =>
    obtain ⟨k, v⟩ := m
    rw [memberLeaves, List.mem_append, ih, List.mem_map]
    simp only [List.mem_cons, exists_eq_or_imp, eq_comm (b := l)]

theorem keysIn_leaves {P : σ → Prop} {v : Json σ ν} (h : v.Keyed P) : ∀ l ∈ v.leaves, KeysIn P l.1 := by
  induction v using Json.induction_on with
  | null | bool | num | str => simp [leaves, KeysIn]
  | arr vs ih =>
    rw [Keyed, keyedElements_iff] at h
    intro l hl k hk
    obtain ⟨j, hj, l', hl', rfl⟩ := mem_elementLeaves.mp hl
    have hmem := List.getElem_mem hj
    exact ih _ hmem (h _ hmem) l' hl' k (by simpa using hk)
  | obj ms ih =>
    obtain ⟨hkeys, -, hms⟩ := h
    rw [keyedMembers_iff] at hms
    intro l hl k hk
    obtain ⟨m, hm, l', hl', rfl⟩ := mem_memberLeaves.mp hl
    rcases List.mem_cons.mp hk with hk | hk
    · obtain rfl := Seg.key.inj hk
      exact hkeys m hm
    · exact ih m hm (hms m hm) l' hl' k hk

/-- The leaves are scalars of the value. -/
theorem scalar_leaves {S : σ → Prop} {N : ν → Prop} {v : Json σ ν} (h : v.All S N) :
    ∀ l ∈ v.leaves, l.2.IsScalar ∧ l.2.All S N := by
  induction v using Json.induction_on with
  | null | bool | num | str => simpa [leaves, IsScalar] using h
  | arr vs ih =>
    rw [All, allElements_iff] at h
    intro l hl
    obtain ⟨j, hj, l', hl', rfl⟩ := mem_elementLeaves.mp hl
    have hmem := List.getElem_mem hj
    exact ih _ hmem (h _ hmem) l' hl'
  | obj ms ih =>
    rw [All, allMembers_iff] at h
    intro l hl
    obtain ⟨m, hm, l', hl', rfl⟩ := mem_memberLeaves.mp hl
    exact ih m hm (h m hm).2 l' hl'

theorem nodup_cons_positions {s : Seg σ} {ls more : List (List (Seg σ) × Json σ ν)}
    (hls : (ls.map Prod.fst).Nodup) (hmore : (more.map Prod.fst).Nodup)
    (hne : ∀ l ∈ more, l.1.head? ≠ some s) :
    ((ls.map (fun l => (s :: l.1, l.2)) ++ more).map Prod.fst).Nodup := by
  rw [List.map_append, List.nodup_append, List.map_map]
  refine ⟨?_, hmore, ?_⟩
  · have hcons := hls.map (List.cons_injective (a := s))
    rwa [List.map_map] at hcons
  · intro x hx y hy
    obtain ⟨l, _, rfl⟩ := List.mem_map.mp hx
    obtain ⟨l', hl', rfl⟩ := List.mem_map.mp hy
    intro heq
    exact hne l' hl' (by rw [← heq]; rfl)

/-- Two leaves are not at one position. -/
theorem nodup_positions {P : σ → Prop} {v : Json σ ν} (h : v.Keyed P) : (v.leaves.map Prod.fst).Nodup := by
  induction v using Json.induction_on with
  | null | bool | num | str => simp [leaves]
  | arr vs ih =>
    rw [Keyed] at h
    rw [leaves]
    generalize 0 = i
    induction vs generalizing i with
    | nil => simp [elementLeaves]
    | cons v vs ihvs =>
      refine nodup_cons_positions (ih v (by simp) h.1)
        (ihvs (fun v hv => ih v (by simp [hv])) h.2 (i + 1)) fun l hl => ?_
      obtain ⟨j, _, l', _, rfl⟩ := mem_elementLeaves.mp hl
      simp
      omega
  | obj ms ih =>
    obtain ⟨-, hnodup, hms⟩ := h
    rw [leaves]
    induction ms with
    | nil => simp [memberLeaves]
    | cons m ms ihms =>
      obtain ⟨k, v⟩ := m
      obtain ⟨hnot, hnodup⟩ := List.nodup_cons.mp hnodup
      refine nodup_cons_positions (ih (k, v) (by simp) hms.1)
        (ihms (fun m hm => ih m (by simp [hm])) hnodup hms.2) fun l hl => ?_
      obtain ⟨m, hm, l', _, rfl⟩ := mem_memberLeaves.mp hl
      intro heq
      obtain rfl : m.1 = k := by simpa using heq
      exact hnot (List.mem_map.mpr ⟨m, hm, rfl⟩)

end JsonText.Json

namespace Triepack

open JsonText Json

/-- A byte that does not begin a segment behind another one. -/
def inSegment (b : UInt8) : Bool := b != point && b != openBracket

/-- A key that a path can be taken apart at. -/
def IsName (k : List UInt8) : Prop := k ≠ [] ∧ ∀ b ∈ k, inSegment b = true

/-- A segment behind others. -/
def segText : Seg (List UInt8) → List UInt8
  | .key k => point :: k
  | .idx i => indexText i

theorem pathText_of_ne_nil {path : List UInt8} (h : path ≠ []) (pos : List (Seg (List UInt8))) :
    pathText path pos = path ++ pos.flatMap segText := by
  induction pos generalizing path with
  | nil => simp [pathText]
  | cons s pos ih =>
    have hpush : pushSeg path s = path ++ segText s := by
      cases s with
      | key k => rw [pushSeg, if_pos (List.length_pos_iff.mpr h), segText]
      | idx i => rfl
    have hne : path ++ segText s ≠ [] := by simp [h]
    have htext := ih hne
    rw [pathText, List.foldl_cons, hpush]
    rw [pathText] at htext
    rw [htext, List.flatMap_cons, List.append_assoc]

/-- What a segment consists of behind its first byte. -/
def segBody : Seg (List UInt8) → List UInt8
  | .key k => k
  | .idx i => decimal i ++ [closeBracket]

theorem segBody_inSegment {s : Seg (List UInt8)} (h : ∀ k, s = .key k → IsName k) :
    ∀ b ∈ segBody s, inSegment b = true := by
  have hdigit : ∀ b : UInt8, isDigit b = true → inSegment b = true := forall_byte (by decide +kernel)
  cases s with
  | key k => exact (h k rfl).2
  | idx i =>
    intro b hb
    rcases List.mem_append.mp hb with hb | hb
    · exact hdigit b ((isDigits_decimal i).2 b hb)
    · obtain rfl := List.mem_singleton.mp hb
      decide

theorem head_flatMap_segText (pos : List (Seg (List UInt8))) :
    ∀ b ∈ (pos.flatMap segText).head?, inSegment b = false := by
  intro b hb
  match pos, hb with
  | .key k :: pos, hb =>
    obtain rfl : point = b := by simpa [segText] using hb
    decide
  | .idx i :: pos, hb =>
    obtain rfl : openBracket = b := by simpa [segText, indexText] using hb
    decide

theorem segBody_inj {s s' : Seg (List UInt8)} (hhead : (segText s).head? = (segText s').head?)
    (hbody : segBody s = segBody s') : s = s' := by
  match s, s' with
  | .key k, .key k' => exact congrArg _ hbody
  | .idx i, .idx i' => exact congrArg _ (decimal_injective (List.append_cancel_right hbody))
  | .key k, .idx i' | .idx i, .key k' => exact absurd (Option.some.inj hhead) (by decide)

/-- Segments behind others are told from their text. -/
theorem flatMap_segText_inj {pos pos' : List (Seg (List UInt8))} (h : KeysIn IsName pos)
    (h' : KeysIn IsName pos') (heq : pos.flatMap segText = pos'.flatMap segText) : pos = pos' := by
  have hcons : ∀ (s : Seg (List UInt8)) pos, ∃ b, (segText s).head? = some b ∧
      (s :: pos).flatMap segText = b :: (segBody s ++ pos.flatMap segText) := by
    rintro (k | i) pos
    · exact ⟨_, rfl, rfl⟩
    · exact ⟨_, rfl, by simp [segText, segBody, indexText]⟩
  induction pos generalizing pos' with
  | nil =>
    cases pos' with
    | nil => rfl
    | cons s' pos' =>
      obtain ⟨b, -, hs'⟩ := hcons s' pos'
      rw [hs'] at heq
      simp at heq
  | cons s pos ih =>
    obtain ⟨b, hb, hs⟩ := hcons s pos
    cases pos' with
    | nil =>
      rw [hs] at heq
      simp at heq
    | cons s' pos' =>
      obtain ⟨b', hb', hs'⟩ := hcons s' pos'
      rw [hs, hs'] at heq
      obtain ⟨rfl, htail⟩ := List.cons.inj heq
      obtain ⟨hbody, hrest⟩ := append_inj_of_all
        (segBody_inSegment fun k hk => h k (by rw [hk]; exact List.mem_cons_self))
        (segBody_inSegment fun k hk => h' k (by rw [hk]; exact List.mem_cons_self))
        (head_flatMap_segText pos) (head_flatMap_segText pos') htail
      obtain rfl := segBody_inj (hb.trans hb'.symm) hbody
      rw [ih (fun k hk => h k (List.mem_cons_of_mem _ hk))
        (fun k hk => h' k (List.mem_cons_of_mem _ hk)) hrest]

/-- The point that a key in front does without. -/
def missingPoint : List (Seg (List UInt8)) → List UInt8
  | .key _ :: _ => [point]
  | _ => []

theorem missingPoint_append {pos : List (Seg (List UInt8))} (h : KeysIn IsName pos) :
    missingPoint pos ++ pathText [] pos = pos.flatMap segText := by
  match pos, h with
  | [], _ => rfl
  | .key k :: pos, h =>
    have hk : k ≠ [] := (h k List.mem_cons_self).1
    change [point] ++ pathText k pos = _
    rw [pathText_of_ne_nil hk]
    rfl
  | .idx i :: pos, _ =>
    have hne : indexText i ≠ [] := by simp [indexText]
    change [] ++ pathText (indexText i) pos = _
    rw [pathText_of_ne_nil hne]
    rfl

theorem missingPoint_eq {pos : List (Seg (List UInt8))} (h : KeysIn IsName pos) :
    missingPoint pos = if (pathText [] pos).head?.any inSegment then [point] else [] := by
  match pos, h with
  | [], _ => rfl
  | .key k :: pos, h =>
    obtain ⟨hne, hk⟩ := h k List.mem_cons_self
    obtain ⟨b, t, rfl⟩ := List.exists_cons_of_ne_nil hne
    change _ = if (pathText (b :: t) pos).head?.any inSegment then [point] else []
    rw [pathText_of_ne_nil hne, List.cons_append, List.head?_cons, Option.any_some,
      hk b List.mem_cons_self]
    rfl
  | .idx i :: pos, _ =>
    have hne : indexText i ≠ [] := by simp [indexText]
    change _ = if (pathText (indexText i) pos).head?.any inSegment then [point] else []
    rw [pathText_of_ne_nil hne]
    rfl

/-- A position is told from its text. -/
theorem pathText_inj {pos pos' : List (Seg (List UInt8))} (h : KeysIn IsName pos)
    (h' : KeysIn IsName pos') (heq : pathText [] pos = pathText [] pos') : pos = pos' := by
  refine flatMap_segText_inj h h' ?_
  rw [← missingPoint_append h, ← missingPoint_append h', missingPoint_eq h, missingPoint_eq h', heq]

/-- No two leaves have one path. -/
theorem nodup_paths {v : Json (List UInt8) NumLit} (h : v.Keyed IsName) :
    (v.leaves.map fun l => pathText [] l.1).Nodup := by
  have hpaths := (nodup_positions h).map_on (f := pathText []) fun pos hpos pos' hpos' heq => by
    obtain ⟨l, hl, rfl⟩ := List.mem_map.mp hpos
    obtain ⟨l', hl', rfl⟩ := List.mem_map.mp hpos'
    exact pathText_inj (keysIn_leaves h l hl) (keysIn_leaves h l' hl') heq
  rwa [List.map_map] at hpaths

theorem mem_pathText {path : List UInt8} {pos : List (Seg (List UInt8))} {b : UInt8}
    (h : b ∈ pathText path pos) :
    b ∈ path ∨ b = point ∨ (∃ k, .key k ∈ pos ∧ b ∈ k) ∨ ∃ i, b ∈ indexText i := by
  induction pos generalizing path with
  | nil => exact .inl h
  | cons s pos ih =>
    have hpush : b ∈ pushSeg path s →
        b ∈ path ∨ b = point ∨ (∃ k, s = .key k ∧ b ∈ k) ∨ ∃ i, b ∈ indexText i := by
      cases s <;> grind [pushSeg]
    obtain h | h | ⟨k, hk, hb⟩ | h := ih h
    · obtain h | h | ⟨k, rfl, hb⟩ | h := hpush h
      · exact .inl h
      · exact .inr (.inl h)
      · exact .inr (.inr (.inl ⟨k, List.mem_cons_self, hb⟩))
      · exact .inr (.inr (.inr h))
    · exact .inr (.inl h)
    · exact .inr (.inr (.inl ⟨k, List.mem_cons_of_mem _ hk, hb⟩))
    · exact .inr (.inr (.inr h))

end Triepack
