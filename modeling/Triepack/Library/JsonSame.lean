import Triepack.Library.Json

/-!
# Values up to the order of members

Two values are the same when their arrays have the same elements in the same order and their
objects the same members in any order. The keys of an object are taken to be distinct.
-/

namespace JsonText.Json

variable {σ ν : Type}

/-- Equality up to the order of members. -/
inductive Same : Json σ ν → Json σ ν → Prop
  | null : Same .null .null
  | bool (b : Bool) : Same (.bool b) (.bool b)
  | num (n : ν) : Same (.num n) (.num n)
  | str (s : σ) : Same (.str s) (.str s)
  | arr {vs ws : List (Json σ ν)} (hlen : vs.length = ws.length)
      (h : ∀ i, ∀ hi : i < vs.length, ∀ hi' : i < ws.length, Same vs[i] ws[i]) : Same (.arr vs) (.arr ws)
  | obj {ms ns : List (σ × Json σ ν)} (hkeys : (ms.map Prod.fst).Perm (ns.map Prod.fst))
      (h : ∀ k v w, (k, v) ∈ ms → (k, w) ∈ ns → Same v w) : Same (.obj ms) (.obj ns)

namespace Same

variable {u v w : Json σ ν}

theorem symm (h : Same v w) : Same w v := by
  induction h with
  | null => exact .null
  | bool b => exact .bool b
  | num n => exact .num n
  | str s => exact .str s
  | arr hlen _ ih => exact .arr hlen.symm fun i hi hi' => ih i hi' hi
  | obj hkeys _ ih => exact .obj hkeys.symm fun k v w hv hw => ih k w v hw hv

theorem trans (h : Same u v) (h' : Same v w) : Same u w := by
  induction h generalizing w with
  | null => exact h'
  | bool b => exact h'
  | num n => exact h'
  | str s => exact h'
  | arr hlen h ih =>
    cases h' with
    | arr hlen' h' =>
      refine .arr (hlen.trans hlen') fun i hi hi' => ?_
      have hmid := hlen ▸ hi
      exact ih i hi hmid (h' i hmid hi')
  | obj hkeys h ih =>
    cases h' with
    | obj hkeys' h' =>
      refine .obj (hkeys.trans hkeys') fun k v w hv hw => ?_
      obtain ⟨m, hm, rfl⟩ := List.mem_map.mp (hkeys.mem_iff.mp (List.mem_map_of_mem (f := Prod.fst) hv))
      exact ih _ v m.2 hv hm (h' _ m.2 w hm hw)

end Same

/-! ## The order of elements -/

mutual

/-- The elements of every array of `n` are put into the order `order n`. -/
def reorder (order : Nat → List Nat) : Json σ ν → Json σ ν
  | .arr vs => .arr ((order vs.length).map fun i => (reorderElements order vs).getD i .null)
  | .obj ms => .obj (reorderMembers order ms)
  | .null => .null
  | .bool b => .bool b
  | .num n => .num n
  | .str s => .str s

def reorderElements (order : Nat → List Nat) : List (Json σ ν) → List (Json σ ν)
  | [] => []
  | v :: vs => reorder order v :: reorderElements order vs

def reorderMembers (order : Nat → List Nat) : List (σ × Json σ ν) → List (σ × Json σ ν)
  | [] => []
  | (k, v) :: ms => (k, reorder order v) :: reorderMembers order ms

end

theorem reorderElements_eq (order : Nat → List Nat) (vs : List (Json σ ν)) :
    reorderElements order vs = vs.map (reorder order) := by
  induction vs with
  | nil => rfl
  | cons v vs ih => rw [reorderElements, ih, List.map_cons]

theorem reorderMembers_eq (order : Nat → List Nat) (ms : List (σ × Json σ ν)) :
    reorderMembers order ms = ms.map fun m => (m.1, reorder order m.2) := by
  induction ms with
  | nil => rfl
  | cons m ms ih => rw [reorderMembers, ih, List.map_cons]

mutual

/-- No array has more elements than the bound. -/
def Short (bound : Nat) : Json σ ν → Prop
  | .arr vs => vs.length ≤ bound ∧ ShortElements bound vs
  | .obj ms => ShortMembers bound ms
  | _ => True

def ShortElements (bound : Nat) : List (Json σ ν) → Prop
  | [] => True
  | v :: vs => Short bound v ∧ ShortElements bound vs

def ShortMembers (bound : Nat) : List (σ × Json σ ν) → Prop
  | [] => True
  | (_, v) :: ms => Short bound v ∧ ShortMembers bound ms

end

theorem shortElements_iff {bound : Nat} {vs : List (Json σ ν)} :
    ShortElements bound vs ↔ ∀ v ∈ vs, Short bound v := by
  induction vs with
  | nil => simp [ShortElements]
  | cons v vs ih => rw [ShortElements, ih, List.forall_mem_cons]

theorem shortMembers_iff {bound : Nat} {ms : List (σ × Json σ ν)} :
    ShortMembers bound ms ↔ ∀ m ∈ ms, Short bound m.2 := by
  induction ms with
  | nil => simp [ShortMembers]
  | cons m ms ih => rw [ShortMembers, ih, List.forall_mem_cons]

/-- Nothing changes when the arrays that occur keep their order. -/
theorem reorder_eq_self {order : Nat → List Nat} {bound : Nat}
    (horder : ∀ n ≤ bound, order n = List.range n) {v : Json σ ν} (hv : v.Short bound) :
    v.reorder order = v := by
  induction v using induction_on with
  | null | bool | num | str => rfl
  | arr vs ih =>
    obtain ⟨hlen, hvs⟩ := hv
    have helements : vs.map (reorder order) = vs :=
      (List.map_congr_left fun v hv => ih v hv (shortElements_iff.mp hvs v hv)).trans (List.map_id vs)
    rw [reorder, reorderElements_eq, helements, horder _ hlen]
    congr 1
    exact List.ext_getElem (by simp) fun i hi hi' => by simp [hi']
  | obj ms ih =>
    have hmembers : ms.map (fun m => (m.1, reorder order m.2)) = ms := by
      refine (List.map_congr_left fun m hm => ?_).trans (List.map_id ms)
      rw [ih m hm (shortMembers_iff.mp hv m hm)]
      rfl
    rw [reorder, reorderMembers_eq, hmembers]

/-! ## Containers that hold something -/

mutual

/-- No container is empty. -/
def NoEmpty : Json σ ν → Prop
  | .arr vs => vs ≠ [] ∧ NoEmptyElements vs
  | .obj ms => ms ≠ [] ∧ NoEmptyMembers ms
  | _ => True

def NoEmptyElements : List (Json σ ν) → Prop
  | [] => True
  | v :: vs => NoEmpty v ∧ NoEmptyElements vs

def NoEmptyMembers : List (σ × Json σ ν) → Prop
  | [] => True
  | (_, v) :: ms => NoEmpty v ∧ NoEmptyMembers ms

end

theorem noEmptyElements_iff {vs : List (Json σ ν)} : NoEmptyElements vs ↔ ∀ v ∈ vs, NoEmpty v := by
  induction vs with
  | nil => simp [NoEmptyElements]
  | cons v vs ih => rw [NoEmptyElements, ih, List.forall_mem_cons]

theorem noEmptyMembers_iff {ms : List (σ × Json σ ν)} : NoEmptyMembers ms ↔ ∀ m ∈ ms, NoEmpty m.2 := by
  induction ms with
  | nil => simp [NoEmptyMembers]
  | cons m ms ih => rw [NoEmptyMembers, ih, List.forall_mem_cons]

theorem noEmpty_map {σ' ν' : Type} {f : σ → σ'} {g : ν → ν'} {v : Json σ ν} : (v.map f g).NoEmpty ↔ v.NoEmpty := by
  induction v using induction_on with
  | null | bool | num | str => rfl
  | arr vs ih =>
    rw [Json.map, mapElements_eq, NoEmpty, NoEmpty, noEmptyElements_iff, noEmptyElements_iff, List.forall_mem_map,
      ne_eq, List.map_eq_nil_iff]
    exact and_congr Iff.rfl (forall₂_congr ih)
  | obj ms ih =>
    rw [Json.map, mapMembers_eq, NoEmpty, NoEmpty, noEmptyMembers_iff, noEmptyMembers_iff, List.forall_mem_map,
      ne_eq, List.map_eq_nil_iff]
    exact and_congr Iff.rfl (forall₂_congr ih)

theorem leaves_ne_nil {v : Json σ ν} (h : v.NoEmpty) : v.leaves ≠ [] := by
  induction v using induction_on with
  | null | bool | num | str => simp [leaves]
  | arr vs ih =>
    obtain ⟨hne, hvs⟩ := h
    obtain ⟨v, vs, rfl⟩ := List.exists_cons_of_ne_nil hne
    rw [leaves, elementLeaves]
    exact List.append_ne_nil_of_left_ne_nil (by simpa using ih v (by simp) hvs.1) _
  | obj ms ih =>
    obtain ⟨hne, hms⟩ := h
    obtain ⟨⟨k, v⟩, ms, rfl⟩ := List.exists_cons_of_ne_nil hne
    rw [leaves, memberLeaves]
    exact List.append_ne_nil_of_left_ne_nil (by simpa using ih (k, v) (by simp) hms.1) _

end JsonText.Json
