import Triepack.Library.PrefixTree

/-!
# The size of a compact prefix tree

What a tree occupies when it is written out depends on the letters on its labels and on its
nodes. In a compact tree both are bounded by its keys.
-/

namespace PrefixTree

variable {α ν : Type*}

mutual

/-- The letters on all labels. -/
def letters : PrefixTree α ν → Nat
  | node l _ kids => l.length + kidsLetters kids

def kidsLetters : List (PrefixTree α ν) → Nat
  | [] => 0
  | t :: ts => letters t + kidsLetters ts

end

/-- The letters of all keys. -/
def keyLetters (es : List (List α × ν)) : Nat := (es.map fun e => e.1.length).sum

@[simp] theorem keyLetters_append (es es' : List (List α × ν)) :
    keyLetters (es ++ es') = keyLetters es + keyLetters es' := by simp [keyLetters]

theorem keyLetters_under (l : List α) (es : List (List α × ν)) :
    keyLetters (es.map (under l)) = es.length * l.length + keyLetters es := by
  induction es with
  | nil => simp [keyLetters]
  | cons e es ih =>
    have hcons : ∀ (e : List α × ν) es, keyLetters (e :: es) = e.1.length + keyLetters es := fun _ _ => by
      simp [keyLetters]
    rw [List.map_cons, hcons, hcons, ih, List.length_cons, under, List.length_append]
    grind

theorem Compact.size_pos {t : PrefixTree α ν} (h : Compact t) : 0 < t.size :=
  List.length_pos_iff.mpr h.entries_ne_nil

theorem letters_le_kidsLetters {kids : List (PrefixTree α ν)} {t : PrefixTree α ν} (h : t ∈ kids) :
    t.letters ≤ kidsLetters kids := by
  induction kids with
  | nil => cases h
  | cons u us ih =>
    rw [kidsLetters]
    rcases List.mem_cons.mp h with rfl | h
    · omega
    · have := ih h
      omega

theorem kidsLetters_le {kids : List (PrefixTree α ν)} (h : ∀ t ∈ kids, t.letters ≤ keyLetters t.entries) :
    kidsLetters kids ≤ keyLetters (kids.flatMap entries) := by
  induction kids with
  | nil => exact Nat.zero_le _
  | cons t ts ih =>
    have ht := h t (by simp)
    have hts := ih fun u hu => h u (by simp [hu])
    rw [kidsLetters, List.flatMap_cons, keyLetters_append]
    omega

/-- Every letter of a label is one of a key. -/
theorem Compact.letters_le {t : PrefixTree α ν} (h : Compact t) : t.letters ≤ keyLetters t.entries := by
  induction h with
  | @intro l term kids compact labels heads two ih =>
    have hsize := (Compact.intro (l := l) compact labels heads two).size_pos
    have hlabel : l.length ≤ (node l term kids).size * l.length := Nat.le_mul_of_pos_left _ hsize
    have hkids := kidsLetters_le ih
    rw [size, entries_node, List.length_map] at hlabel
    rw [letters, entries_node, keyLetters_under, keyLetters_append]
    omega

end PrefixTree
