import Triepack.Json.Decode

/-!
# What is emitted

`emit_json` writes the text of a tree. At its leaves are values of entries and nulls, and over the
children of a container are the segments that the keys were grouped by.
-/

namespace Triepack

open JsonText

/-! ## Trees -/

/-- What is written for a prefix: a value, a null where no entry is found, or a container. -/
inductive Emitted where
  | value (e : FlatEntry)
  | null
  | container (isArray : Bool) (children : List (List UInt8 × Emitted))

namespace Emitted

/-- Induction on a tree, with the hypothesis for every child. -/
theorem induction_on {P : Emitted → Prop} (t : Emitted) (value : ∀ e, P (.value e)) (null : P .null)
    (container : ∀ isArray cs, (∀ c ∈ cs, P c.2) → P (.container isArray cs)) : P t := by
  refine Emitted.rec (motive_1 := P) (motive_2 := fun cs => ∀ c ∈ cs, P c.2) (motive_3 := fun c => P c.2)
    value null container (by simp) ?_ (fun _ _ ht => ht) t
  intro c cs hc hcs
  exact List.forall_mem_cons.mpr ⟨hc, hcs⟩

section Text

variable (pf : PrintFloat) (buf : List UInt8) (indent : Option (List UInt8))

mutual

def text : Emitted → Nat → List UInt8
  | .value e, _ => entryText pf buf e
  | .null, _ => nullWord
  | .container isArray cs, depth => containerText indent isArray depth (childTexts isArray cs depth)

def childTexts (isArray : Bool) : List (List UInt8 × Emitted) → Nat → List (List UInt8)
  | [], _ => []
  | (seg, t) :: cs, depth =>
    childText indent isArray depth seg (text t (depth + 1)) :: childTexts isArray cs depth

end

end Text

end Emitted

/-! ## Levels -/

/-- The keys that go on behind a prefix. -/
def keysBehind (es : List FlatEntry) (pre : List UInt8) : List (List UInt8) :=
  (es.map FlatEntry.key).filter fun key => decide (GoesOn pre key)

/-- `all_array`. -/
def isArrayLevel (es : List FlatEntry) (pre : List UInt8) : Bool :=
  (keysBehind es pre).all (atIndex pre.length)

/-- The prefix of a child. -/
def childPrefix (isArray : Bool) (pre seg : List UInt8) : List UInt8 :=
  if isArray ∨ pre = [] then pre ++ seg else pre ++ point :: seg

theorem newPrefix_eq (isArray : Bool) (pre seg : List UInt8) :
    newPrefix isArray pre seg = if (childPrefix isArray pre seg).length < pathSize
      then .ok (childPrefix isArray pre seg) else .error (.oob (childPrefix isArray pre seg).length) := rfl

theorem mem_keysBehind {es : List FlatEntry} {pre key : List UInt8} :
    key ∈ keysBehind es pre ↔ (∃ e ∈ es, e.key = key) ∧ GoesOn pre key := by
  simp [keysBehind]

theorem isPrefix_childPrefix (isArray : Bool) (pre seg : List UInt8) :
    pre <+: childPrefix isArray pre seg := by
  unfold childPrefix
  split_ifs <;> exact List.prefix_append ..

theorem length_childPrefix {isArray : Bool} {pre seg : List UInt8} (h : seg ≠ []) :
    pre.length < (childPrefix isArray pre seg).length := by
  have hpos := List.length_pos_iff.mpr h
  unfold childPrefix
  split_ifs <;> simp only [List.length_append, List.length_cons] <;> omega

/-! ## Segments -/

section Segments

variable {n : Nat} {keys : List (List UInt8)}

theorem uniqueSegments_concat (n : Nat) (keys : List (List UInt8)) (key : List UInt8) :
    uniqueSegments n (keys ++ [key]) =
      if segmentOf n key = [] ∨ segmentOf n key ∈ uniqueSegments n keys then uniqueSegments n keys
      else uniqueSegments n keys ++ [segmentOf n key] := by
  rw [uniqueSegments, List.foldl_append]
  rfl

theorem mem_uniqueSegments {seg : List UInt8} :
    seg ∈ uniqueSegments n keys ↔ seg ≠ [] ∧ ∃ key ∈ keys, segmentOf n key = seg := by
  induction keys using List.reverseRecOn with
  | nil => simp [uniqueSegments]
  | append_singleton keys key ih =>
    rw [uniqueSegments_concat]
    split_ifs with h <;> grind

theorem nodup_uniqueSegments : (uniqueSegments n keys).Nodup := by
  induction keys using List.reverseRecOn with
  | nil => simp [uniqueSegments]
  | append_singleton keys key ih =>
    rw [uniqueSegments_concat]
    split_ifs with h
    · exact ih
    · rw [List.nodup_append]
      refine ⟨ih, List.nodup_singleton _, fun s hs t ht heq => ?_⟩
      obtain rfl := List.mem_singleton.mp ht
      exact h (.inr (heq ▸ hs))

/-- A segment comes before another one by a key that is below all keys of the other. -/
theorem pairwise_uniqueSegments (h : keys.Pairwise (· ≤ ·)) :
    (uniqueSegments n keys).Pairwise fun s t =>
      ∃ key ∈ keys, segmentOf n key = s ∧ ∀ key' ∈ keys, segmentOf n key' = t → key ≤ key' := by
  induction keys using List.reverseRecOn with
  | nil => simp [uniqueSegments]
  | append_singleton keys key ih =>
    obtain ⟨hkeys, -, hlast⟩ := List.pairwise_append.mp h
    have hold : (uniqueSegments n keys).Pairwise fun s t => ∃ k ∈ keys ++ [key], segmentOf n k = s ∧
        ∀ k' ∈ keys ++ [key], segmentOf n k' = t → k ≤ k' := by
      refine (ih hkeys).imp ?_
      rintro s t ⟨k, hk, hs, hle⟩
      refine ⟨k, List.mem_append_left _ hk, hs, fun k' hk' ht => ?_⟩
      obtain hk' | hk' := List.mem_append.mp hk'
      · exact hle k' hk' ht
      · exact hlast k hk k' hk'
    rw [uniqueSegments_concat]
    split_ifs with hknown
    · exact hold
    · refine List.pairwise_append.mpr ⟨hold, List.pairwise_singleton _ _, fun s hs t ht => ?_⟩
      obtain rfl := List.mem_singleton.mp ht
      obtain ⟨-, k, hk, rfl⟩ := mem_uniqueSegments.mp hs
      refine ⟨k, List.mem_append_left _ hk, rfl, fun k' hk' ht => ?_⟩
      obtain hk' | hk' := List.mem_append.mp hk'
      · refine absurd ?_ hknown
        by_cases hnil : segmentOf n key = []
        · exact .inl hnil
        · exact .inr (mem_uniqueSegments.mpr ⟨hnil, k', hk', ht⟩)
      · exact hlast k hk k' hk'

end Segments

/-! ## The tree of a prefix -/

/-- The tree that is written for a prefix. -/
inductive Emits (es : List FlatEntry) : List UInt8 → Emitted → Prop
  | value {pre : List UInt8} {e : FlatEntry} (hkeys : keysBehind es pre = [])
      (hleaf : findLeaf es pre = some e) : Emits es pre (.value e)
  | null {pre : List UInt8} (hkeys : keysBehind es pre = []) (hleaf : findLeaf es pre = none) :
      Emits es pre .null
  | container {pre : List UInt8} {cs : List (List UInt8 × Emitted)} (hkeys : keysBehind es pre ≠ [])
      (hsegs : cs.map Prod.fst = uniqueSegments pre.length (keysBehind es pre))
      (hroom : ∀ c ∈ cs, (childPrefix (isArrayLevel es pre) pre c.1).length < pathSize)
      (hchild : ∀ c ∈ cs, Emits es (childPrefix (isArrayLevel es pre) pre c.1) c.2) :
      Emits es pre (.container (isArrayLevel es pre) cs)

section Emit

variable {pf : PrintFloat} {buf : List UInt8} {indent : Option (List UInt8)} {es : List FlatEntry}

theorem keysBehind_eq_nil {pre : List UInt8} (h : hasChildren es pre = false) : keysBehind es pre = [] := by
  refine List.eq_nil_iff_forall_not_mem.mpr fun key hkey => ?_
  obtain ⟨⟨e, he, rfl⟩, hpre, hplain, hlt⟩ := mem_keysBehind.mp hkey
  have hlen : pre.length < e.key.length := by
    unfold segStart at hlt
    split_ifs at hlt <;> omega
  have hany : hasChildren es pre = true := List.any_eq_true.mpr ⟨e, he, decide_eq_true ⟨hlen, hpre, hplain⟩⟩
  exact Bool.false_ne_true (h.symm.trans hany)

/-- Only one tree is written. -/
theorem Emits.unique {pre : List UInt8} {t t' : Emitted} (h : Emits es pre t) (h' : Emits es pre t') :
    t = t' := by
  induction h generalizing t' with
  | value hkeys hleaf =>
    cases h' with
    | value _ hleaf' => rw [Option.some.inj (hleaf.symm.trans hleaf')]
    | null _ hleaf' => simp [hleaf] at hleaf'
    | container hkeys' => exact absurd hkeys hkeys'
  | null hkeys hleaf =>
    cases h' with
    | value _ hleaf' => simp [hleaf] at hleaf'
    | null => rfl
    | container hkeys' => exact absurd hkeys hkeys'
  | @container pre cs hkeys hsegs hroom hchild ih =>
    cases h' with
    | value hkeys' => exact absurd hkeys' hkeys
    | null hkeys' => exact absurd hkeys' hkeys
    | @container _ cs' _ hsegs' _ hchild' =>
      congr 1
      have hfst : cs.map Prod.fst = cs'.map Prod.fst := hsegs.trans hsegs'.symm
      have hlen : cs.length = cs'.length := by simpa using congrArg List.length hfst
      refine List.ext_getElem hlen fun i hi hi' => ?_
      have hseg : (cs[i]).1 = (cs'[i]).1 := by
        have hget := congrArg (fun l => l[i]?) hfst
        simpa [hi, hi'] using hget
      refine Prod.ext hseg (ih _ (List.getElem_mem hi) ?_)
      rw [hseg]
      exact hchild' _ (List.getElem_mem hi')

theorem Emits.eq_value {pre : List UInt8} {t : Emitted} {e : FlatEntry} (h : Emits es pre t)
    (hleaf : findLeaf es pre = some e) (hchildren : hasChildren es pre = false) : t = .value e :=
  h.unique (.value (keysBehind_eq_nil hchildren) hleaf)

/-- The text of a child. -/
def emitChild (pf : PrintFloat) (buf : List UInt8) (indent : Option (List UInt8)) (es : List FlatEntry)
    (fuel : Nat) (isArray : Bool) (pre : List UInt8) (depth : Nat) (seg : List UInt8) :
    Except Stop (List UInt8) := do
  let new ← newPrefix isArray pre seg
  let text ← match findLeaf es new, hasChildren es new with
    | some e, false => .ok (entryText pf buf e)
    | _, _ => emitJson pf buf indent es fuel new (depth + 1)
  .ok (childText indent isArray depth seg text)

theorem emitChild_eq (fuel : Nat) (isArray : Bool) (pre : List UInt8) (depth : Nat) (seg : List UInt8) :
    emitChild pf buf indent es fuel isArray pre depth seg =
      if (childPrefix isArray pre seg).length < pathSize then
        (match findLeaf es (childPrefix isArray pre seg), hasChildren es (childPrefix isArray pre seg) with
          | some e, false => .ok (entryText pf buf e)
          | _, _ => emitJson pf buf indent es fuel (childPrefix isArray pre seg) (depth + 1)) >>=
          fun text => .ok (childText indent isArray depth seg text)
      else .error (.oob (childPrefix isArray pre seg).length) := by
  unfold emitChild
  rw [newPrefix_eq]
  by_cases hroom : (childPrefix isArray pre seg).length < pathSize
  · rw [if_pos hroom, if_pos hroom, except_ok_bind]
    split <;> rfl
  · rw [if_neg hroom, if_neg hroom]
    rfl

theorem emitJson_succ (fuel : Nat) (pre : List UInt8) (depth : Nat) :
    emitJson pf buf indent es (fuel + 1) pre depth =
      if keysBehind es pre = [] then
        match findLeaf es pre with
        | some e => .ok (entryText pf buf e)
        | none => .ok nullWord
      else
        (uniqueSegments pre.length (keysBehind es pre)).mapM
          (emitChild pf buf indent es fuel (isArrayLevel es pre) pre depth) >>=
          fun children => .ok (containerText indent (isArrayLevel es pre) depth children) := rfl

/-- A child is written where its prefix has room, and its tree is the one of that prefix. -/
theorem emitChild_eq_ok {fuel depth : Nat} {isArray : Bool} {pre seg text : List UInt8}
    (ih : ∀ {pre : List UInt8} {depth : Nat} {text : List UInt8},
      emitJson pf buf indent es fuel pre depth = .ok text →
        ∃ t, Emits es pre t ∧ text = t.text pf buf indent depth)
    (h : emitChild pf buf indent es fuel isArray pre depth seg = .ok text) :
    (childPrefix isArray pre seg).length < pathSize ∧ ∃ t, Emits es (childPrefix isArray pre seg) t ∧
      text = childText indent isArray depth seg (t.text pf buf indent (depth + 1)) := by
  rw [emitChild_eq] at h
  split_ifs at h with hroom
  obtain ⟨text', htext, h₁⟩ := except_bind_eq_ok h
  obtain rfl := Except.ok.inj h₁
  refine ⟨hroom, ?_⟩
  split at htext
  · rename_i e hleaf hchildren
    obtain rfl := Except.ok.inj htext
    exact ⟨.value e, .value (keysBehind_eq_nil hchildren) hleaf, rfl⟩
  · obtain ⟨t, hemits, rfl⟩ := ih htext
    exact ⟨t, hemits, rfl⟩

theorem mapM_emitChild_eq_ok {f : List UInt8 → Except Stop (List UInt8)} {isArray : Bool} {depth : Nat}
    {P : List UInt8 → Emitted → Prop}
    (hf : ∀ seg text, f seg = .ok text → ∃ t, P seg t ∧
      text = childText indent isArray depth seg (t.text pf buf indent (depth + 1)))
    {segs texts : List (List UInt8)} (h : segs.mapM f = .ok texts) :
    ∃ cs : List (List UInt8 × Emitted), cs.map Prod.fst = segs ∧ (∀ c ∈ cs, P c.1 c.2) ∧
      texts = Emitted.childTexts pf buf indent isArray cs depth := by
  induction segs generalizing texts with
  | nil =>
    obtain rfl : [] = texts := Except.ok.inj h
    exact ⟨[], rfl, by simp, rfl⟩
  | cons seg segs ih =>
    rw [List.mapM_cons] at h
    obtain ⟨text, htext, h₁⟩ := except_bind_eq_ok h
    obtain ⟨texts', htexts, h₂⟩ := except_bind_eq_ok h₁
    obtain rfl := Except.ok.inj h₂
    obtain ⟨t, ht, rfl⟩ := hf seg text htext
    obtain ⟨cs, rfl, hcs, rfl⟩ := ih htexts
    exact ⟨(seg, t) :: cs, rfl, List.forall_mem_cons.mpr ⟨ht, hcs⟩, rfl⟩

/-- What is written is the text of the tree. -/
theorem emits_of_emitJson {fuel : Nat} {pre : List UInt8} {depth : Nat} {text : List UInt8}
    (h : emitJson pf buf indent es fuel pre depth = .ok text) :
    ∃ t, Emits es pre t ∧ text = t.text pf buf indent depth := by
  induction fuel generalizing pre depth text with
  | zero => simp [emitJson] at h
  | succ fuel ih =>
    rw [emitJson_succ] at h
    split_ifs at h with hkeys
    · split at h
      · rename_i e hleaf
        obtain rfl := Except.ok.inj h
        exact ⟨.value e, .value hkeys hleaf, rfl⟩
      · rename_i hleaf
        obtain rfl := Except.ok.inj h
        exact ⟨.null, .null hkeys hleaf, rfl⟩
    · obtain ⟨texts, htexts, h₁⟩ := except_bind_eq_ok h
      obtain rfl := Except.ok.inj h₁
      obtain ⟨cs, hsegs, hcs, rfl⟩ := mapM_emitChild_eq_ok
        (P := fun seg t => (childPrefix (isArrayLevel es pre) pre seg).length < pathSize ∧
          Emits es (childPrefix (isArrayLevel es pre) pre seg) t)
        (fun seg text htext => by
          obtain ⟨hroom, t, hemits, heq⟩ := emitChild_eq_ok ih htext
          exact ⟨t, ⟨hroom, hemits⟩, heq⟩) htexts
      exact ⟨_, .container hkeys hsegs (fun c hc => (hcs c hc).1) fun c hc => (hcs c hc).2, rfl⟩

theorem mapM_emitChild {f : List UInt8 → Except Stop (List UInt8)} {isArray : Bool} {depth : Nat}
    {cs : List (List UInt8 × Emitted)}
    (h : ∀ c ∈ cs, f c.1 = .ok (childText indent isArray depth c.1 (c.2.text pf buf indent (depth + 1)))) :
    (cs.map Prod.fst).mapM f = .ok (Emitted.childTexts pf buf indent isArray cs depth) := by
  induction cs with
  | nil => rfl
  | cons c cs ih =>
    obtain ⟨hc, hcs⟩ := List.forall_mem_cons.mp h
    rw [List.map_cons, List.mapM_cons, hc, except_ok_bind, ih hcs, except_ok_bind]
    rfl

/-- The tree of a prefix is written. -/
theorem Emits.emitJson_eq {pre : List UInt8} {t : Emitted} (h : Emits es pre t) {fuel depth : Nat}
    (hpos : 0 < fuel) (hfuel : pathSize ≤ fuel + pre.length) :
    emitJson pf buf indent es fuel pre depth = .ok (t.text pf buf indent depth) := by
  induction h generalizing fuel depth with
  | value hkeys hleaf =>
    obtain ⟨fuel, rfl⟩ := Nat.exists_eq_succ_of_ne_zero hpos.ne'
    rw [emitJson_succ, if_pos hkeys, hleaf]
    rfl
  | null hkeys hleaf =>
    obtain ⟨fuel, rfl⟩ := Nat.exists_eq_succ_of_ne_zero hpos.ne'
    rw [emitJson_succ, if_pos hkeys, hleaf]
    rfl
  | @container pre cs hkeys hsegs hroom hchild ih =>
    obtain ⟨fuel, rfl⟩ := Nat.exists_eq_succ_of_ne_zero hpos.ne'
    have hall : ∀ c ∈ cs, emitChild pf buf indent es fuel (isArrayLevel es pre) pre depth c.1 =
        .ok (childText indent (isArrayLevel es pre) depth c.1 (c.2.text pf buf indent (depth + 1))) := by
      intro c hc
      have hlt := hroom c hc
      have hmem : c.1 ∈ uniqueSegments pre.length (keysBehind es pre) := hsegs ▸ List.mem_map_of_mem hc
      have hlonger : pre.length < (childPrefix (isArrayLevel es pre) pre c.1).length :=
        length_childPrefix (mem_uniqueSegments.mp hmem).1
      have hrec : emitJson pf buf indent es fuel (childPrefix (isArrayLevel es pre) pre c.1) (depth + 1) =
          .ok (c.2.text pf buf indent (depth + 1)) := ih c hc (by omega) (by omega)
      rw [emitChild_eq, if_pos hlt]
      split
      · rename_i e hleaf hchildren
        rw [(hchild c hc).eq_value hleaf hchildren]
        rfl
      · rw [hrec]
        rfl
    rw [emitJson_succ, if_neg hkeys, ← hsegs, mapM_emitChild hall, except_ok_bind]
    rfl

/-- A list is emitted when its tree can be written, and the text is the one of the tree. -/
theorem emitJson_eq_ok_iff {text : List UInt8} :
    emitJson pf buf indent es (pathSize + 1) [] 0 = .ok text ↔
      ∃ t, Emits es [] t ∧ text = t.text pf buf indent 0 := by
  constructor
  · exact emits_of_emitJson
  · rintro ⟨t, ht, rfl⟩
    exact ht.emitJson_eq (Nat.succ_pos _) (by simp)

end Emit

end Triepack
