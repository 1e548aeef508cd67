import Triepack.Terseml.MemoryStrings

/-!
# The decoder is safe

In memory the decoder does what it does on lists of bytes, unless a request for memory is not granted.
It leaves every buffer full.
-/

namespace Terseml.Memory

open Escape Triepack

/-! ## Trees -/

mutual

/-- Every string of the tree that points into the input lies there. -/
def Tree.Inside (n : Nat) : Tree → Prop
  | .text t => t.Inside n
  | .element tag attrs children =>
    tag.Inside n ∧ (∀ a ∈ attrs, a.1.Inside n ∧ a.2.Inside n) ∧ treesInside n children

def treesInside (n : Nat) : List Tree → Prop
  | [] => True
  | t :: ts => t.Inside n ∧ treesInside n ts

end

/-- The attributes that have been read. -/
def attrsOf (buf : List UInt8) (attrs : List (Str × Str)) : List Attr :=
  attrs.map fun a => ⟨a.1.bytes buf, a.2.bytes buf⟩

mutual

/-- The tree that has been read. -/
def Tree.node (buf : List UInt8) : Tree → Node
  | .text t => .text (t.bytes buf)
  | .element tag attrs children => .element (tag.bytes buf) (attrsOf buf attrs) (nodesOf buf children)

def nodesOf (buf : List UInt8) : List Tree → List Node
  | [] => []
  | t :: ts => t.node buf :: nodesOf buf ts

end

/-- Attributes have been read behind those there are, and the cursor is behind them. -/
def AttrsRead (buf : List UInt8) (before : List (Str × Str)) (v : List (Str × Str) × Nat)
    (w : List Attr × List UInt8) : Prop :=
  ∃ attrs, v.1 = before ++ attrs ∧ (∀ a ∈ attrs, a.1.Inside buf.length ∧ a.2.Inside buf.length) ∧
    attrsOf buf attrs = w.1 ∧ Left buf v.2 w.2

/-- An element has been read. -/
def ElementRead (buf : List UInt8) (v : Tree × Nat) (w : Node × List UInt8) : Prop :=
  v.1.Inside buf.length ∧ v.1.node buf = w.1 ∧ Left buf v.2 w.2

/-- Children have been read behind those there are. -/
def ChildrenRead (buf : List UInt8) (before : List Tree) (v : List Tree × Nat) (w : List Node × List UInt8) : Prop :=
  ∃ kids, v.1 = before ++ kids ∧ treesInside buf.length kids ∧ nodesOf buf kids = w.1 ∧ Left buf v.2 w.2

section Trees

variable {grant : Nat → Bool} {buf s : List UInt8} {i : Nat}

theorem any_beq (o : Option UInt8) (c : UInt8) : o.any (· == c) = true ↔ o = some c := by
  cases o <;> simp

theorem decodeAttrsLoop_sim (fuel : Nat) (h : Left buf i s) (attrs : List (Str × Str)) (cap : Nat) :
    Sim (AttrsRead buf attrs) (decodeAttrsLoop grant buf fuel i attrs cap) (Terseml.decodeAttrsLoop fuel s) := by
  induction fuel generalizing i s attrs cap with
  | zero => exact Sim.throw .fuel
  | succ fuel ih =>
    rw [decodeAttrsLoop, Terseml.decodeAttrsLoop]
    refine (readEscaped_sim h).bind ?_
    rintro ⟨key, j⟩ ⟨key', s₁⟩ ⟨hkey, hleft⟩
    simp only [test_eq, pure_bind, any_beq, hleft.drop]
    by_cases hcol : s₁.head? = some col
    swap
    · rw [if_neg hcol, if_pos hcol]
      exact Sim.malformed
    obtain ⟨s₁, rfl⟩ := List.head?_eq_some_iff.mp hcol
    rw [if_pos hcol, if_neg (not_not.mpr hcol), List.tail_cons]
    refine (readEscaped_sim hleft.succ).bind ?_
    rintro ⟨val, k⟩ ⟨val', s₂⟩ ⟨hval, hleft'⟩
    refine Sim.grow_bind fun cap => ?_
    have hattr : (∀ a ∈ [(key, val)], a.1.Inside buf.length ∧ a.2.Inside buf.length) ∧
        attrsOf buf [(key, val)] = [⟨key', val'⟩] :=
      ⟨by simpa using ⟨hkey.inside, hval.inside⟩, by simp [attrsOf, hkey.bytes, hval.bytes]⟩
    simp only [hleft'.drop]
    by_cases hcom : s₂.head? = some com
    swap
    · rw [if_neg hcom, if_neg hcom]
      exact Sim.pure ⟨[(key, val)], rfl, hattr.1, hattr.2, hleft'⟩
    obtain ⟨s₂, rfl⟩ := List.head?_eq_some_iff.mp hcom
    rw [if_pos hcom, if_pos hcom, List.tail_cons, hleft'.succ.drop]
    by_cases hrsq : s₂.head? = some rsq
    · rw [if_pos hrsq, if_pos hrsq]
      exact Sim.pure ⟨[(key, val)], rfl, hattr.1, hattr.2, hleft'.succ⟩
    · rw [if_neg hrsq, if_neg hrsq]
      refine (ih hleft'.succ _ _).bind_right ?_
      rintro ⟨_, _⟩ ⟨more', s₃⟩ ⟨more, rfl, hinside, hmore, hleft₃⟩
      refine ⟨_, rfl, (key, val) :: more, by simp, ?_, ?_, hleft₃⟩
      · exact List.forall_mem_cons.mpr ⟨hattr.1 _ (by simp), hinside⟩
      · rw [attrsOf, List.map_cons, ← attrsOf, hmore, hkey.bytes, hval.bytes]

theorem decodeAttrs_sim {c : UInt8} (h : Left buf i (c :: s)) :
    Sim (AttrsRead buf []) (decodeAttrs grant buf i) (Terseml.decodeAttrs (c :: s)) := by
  have hnext := h.succ
  have hlen := length_of_drop hnext.le hnext.drop
  rw [decodeAttrs, Terseml.decodeAttrs, List.tail_cons, test_eq, pure_bind, hnext.drop]
  have hloop : Sim (AttrsRead buf [])
      (if s.head?.any (· != rsq) = true then
        decodeAttrsLoop grant buf (buf.length - (i + 1) + 1) (i + 1) [] 0 else pure ([], i + 1))
      (if s.head?.any (· != rsq) = true then Terseml.decodeAttrsLoop (s.length + 1) s else .ok ([], s)) := by
    split_ifs
    · rw [show buf.length - (i + 1) = s.length by omega]
      exact decodeAttrsLoop_sim _ hnext [] 0
    · exact Sim.pure ⟨[], rfl, by simp, rfl, hnext⟩
  refine hloop.bind ?_
  rintro ⟨attrs, j⟩ ⟨attrs', s₁⟩ ⟨_, rfl, hinside, hattrs, hleft⟩
  simp only [test_eq, pure_bind, any_beq, hleft.drop]
  by_cases hrsq : s₁.head? = some rsq
  · obtain ⟨s₁, rfl⟩ := List.head?_eq_some_iff.mp hrsq
    rw [if_pos hrsq, if_pos hrsq]
    exact Sim.keep_bind (Sim.pure ⟨attrs, rfl, hinside, hattrs, hleft.succ⟩)
  · rw [if_neg hrsq, if_neg hrsq]
    exact Sim.malformed

/-- With so much fuel the decoders read the same elements. -/
def ElementsAlike (grant : Nat → Bool) (buf : List UInt8) (fuel : Nat) : Prop :=
  ∀ {depth i : Nat} {s : List UInt8}, Left buf i s →
    Sim (ElementRead buf) (decodeElement grant buf fuel depth i) (Terseml.decodeElement fuel depth s)

/-- And the same children. -/
def ChildrenAlike (grant : Nat → Bool) (buf : List UInt8) (fuel : Nat) : Prop :=
  ∀ {depth i : Nat} {s : List UInt8} (kids : List Tree) (cap : Nat), Left buf i s →
    Sim (ChildrenRead buf kids) (decodeChildren grant buf fuel depth i kids cap)
      (Terseml.decodeChildren fuel depth s)

section Elements

variable {fuel depth : Nat} {tag : Str} {t : List UInt8} {attrs : List (Str × Str)} {attrs' : List Attr}

/-- The children of an element whose tag and attributes have been read. -/
theorem content_sim (ih : ChildrenAlike grant buf fuel) (h : Left buf i s) (htag : tag.Denotes buf t)
    (hinside : ∀ a ∈ attrs, a.1.Inside buf.length ∧ a.2.Inside buf.length) (hattrs : attrsOf buf attrs = attrs') :
    Sim (ElementRead buf)
      (decodeChildren grant buf fuel depth i [] 0 >>= fun v => pure (.element tag attrs v.1, v.2))
      (Terseml.decodeChildren fuel depth s >>= fun w => .ok (.element t attrs' w.1, w.2)) := by
  refine (ih [] 0 h).bind ?_
  rintro ⟨kids, j⟩ ⟨kids', rest⟩ ⟨_, rfl, hkids, hnodes, hleft⟩
  refine Sim.pure ⟨?_, ?_, hleft⟩
  · exact ⟨htag.inside, hinside, hkids⟩
  · have hnodes : nodesOf buf kids = kids' := hnodes
    rw [Tree.node, htag.bytes, hattrs, hnodes]

/-- What has no comma is a text in an element of its own. -/
theorem singleton_sim (htag : tag.Denotes buf t) (h : Left buf i s) :
    Sim (ElementRead buf)
      (if tag.len = 0 then pure (.element (.literal tagText) [] [], i)
      else do
        alloc grant
        alloc grant
        pure (.element (.literal tagText) [] [.text tag], i))
      (.ok (.element tagText [] (if t = [] then [] else [.text t]), s)) := by
  rw [htag.len_eq]
  by_cases hempty : t = []
  · rw [if_pos (by rw [hempty]; rfl), if_pos hempty]
    exact Sim.pure ⟨⟨trivial, by simp, trivial⟩, rfl, h⟩
  · rw [if_neg (by simpa using hempty), if_neg hempty]
    refine Sim.alloc_bind (Sim.alloc_bind (Sim.pure ⟨⟨trivial, by simp, htag.inside, trivial⟩, ?_, h⟩))
    rw [Tree.node, nodesOf, nodesOf, Tree.node, htag.bytes]
    rfl

/-- An element with attributes, from their bracket on. -/
theorem attributed_sim (ih : ChildrenAlike grant buf fuel) (htag : tag.Denotes buf t)
    (h : Left buf i (lsq :: s)) :
    Sim (ElementRead buf)
      (do
        let (attrs, i) ← decodeAttrs grant buf i
        if ← test buf i (· == com) then do
          let (children, i) ← decodeChildren grant buf fuel depth (i + 1) [] 0
          pure (.element tag attrs children, i)
        else if ← test buf i (· == rbr) then pure (.element tag attrs [], i + 1)
        else do
          let (children, i) ← decodeChildren grant buf fuel depth i [] 0
          pure (.element tag attrs children, i))
      (do
        let (attrs, s) ← Terseml.decodeAttrs (lsq :: s)
        if s.head? = some com then do
          let (children, s) ← Terseml.decodeChildren fuel depth s.tail
          .ok (.element t attrs children, s)
        else if s.head? = some rbr then .ok (.element t attrs [], s.tail)
        else do
          let (children, s) ← Terseml.decodeChildren fuel depth s
          .ok (.element t attrs children, s)) := by
  refine (decodeAttrs_sim h).bind ?_
  rintro ⟨attrs, k⟩ ⟨attrs', s₂⟩ ⟨_, rfl, hinside, hattrs, hleft⟩
  simp only [test_eq, pure_bind, any_beq] at hinside hattrs hleft ⊢
  rw [hleft.drop]
  by_cases hcomma : s₂.head? = some com
  · obtain ⟨s₂, rfl⟩ := List.head?_eq_some_iff.mp hcomma
    rw [if_pos hcomma, if_pos hcomma]
    exact content_sim ih hleft.succ htag hinside hattrs
  rw [if_neg hcomma, if_neg hcomma]
  by_cases hend : s₂.head? = some rbr
  · obtain ⟨s₂, rfl⟩ := List.head?_eq_some_iff.mp hend
    rw [if_pos hend, if_pos hend]
    refine Sim.pure ⟨⟨htag.inside, hinside, trivial⟩, ?_, hleft.succ⟩
    rw [Tree.node, htag.bytes, hattrs, nodesOf]
  · rw [if_neg hend, if_neg hend]
    exact content_sim ih hleft htag hinside hattrs

theorem decodeElement_sim (ih : ChildrenAlike grant buf fuel) : ElementsAlike grant buf (fuel + 1) := by
  intro depth i s h
  rw [decodeElement, Terseml.decodeElement]
  by_cases hdepth : depth > maxDepth
  · rw [if_pos hdepth, if_pos hdepth]
    exact Sim.throw (.rc .depth)
  rw [if_neg hdepth, if_neg hdepth]
  simp only [test_eq, pure_bind, any_beq, h.drop]
  by_cases hopen : s.head? = some lbr
  swap
  · rw [if_neg hopen, if_pos hopen]
    exact Sim.malformed
  obtain ⟨s, rfl⟩ := List.head?_eq_some_iff.mp hopen
  rw [if_pos hopen, if_neg (not_not.mpr hopen), List.tail_cons]
  refine Sim.alloc_bind ((readEscaped_sim h.succ).bind ?_)
  rintro ⟨head, j⟩ ⟨head', s₁⟩ ⟨hhead, hleft⟩
  dsimp only at hhead hleft ⊢
  cases s₁ with
  | nil =>
    rw [if_pos (by have := hleft.lt_iff; simp at this; omega)]
    exact Sim.malformed
  | cons c s₁ =>
    have hlt := lt_length hleft.drop
    rw [if_neg (by omega), load_eq hleft.drop, pure_bind]
    dsimp only
    by_cases hclose : c = rbr
    · rw [if_pos hclose, if_pos hclose]
      exact singleton_sim hhead hleft.succ
    rw [if_neg hclose, if_neg hclose]
    by_cases hopen' : c = lbr
    · rw [if_pos hopen', if_pos hopen']
      exact Sim.malformed
    rw [if_neg hopen', if_neg hopen']
    by_cases hcom : c = com
    swap
    · rw [if_pos hcom, if_pos hcom]
      exact Sim.malformed
    rw [if_neg (not_not.mpr hcom), if_neg (not_not.mpr hcom), hleft.succ.drop]
    by_cases hbracket : s₁.head? = some lsq
    · obtain ⟨s₁, rfl⟩ := List.head?_eq_some_iff.mp hbracket
      rw [if_pos hbracket, if_pos hbracket]
      simpa only [test_eq, pure_bind, any_beq] using attributed_sim ih hhead hleft.succ
    · rw [if_neg hbracket, if_neg hbracket]
      exact content_sim ih hleft.succ hhead (by simp) rfl

end Elements

section Children

variable {c : UInt8}

/-- The look at the byte behind a backslash. -/
theorem test_binary (h : Left buf i (c :: s)) :
    (if c = bs then test buf (i + 1) (fun e => e == letterb || e == letterB) else pure false) =
      pure (decide (c = bs ∧ (s.head? = some letterb ∨ s.head? = some letterB))) := by
  rw [test_eq, h.succ.drop]
  split_ifs with hbs
  · congr 1
    cases s with
    | nil => simp [hbs]
    | cons e s => by_cases hb : e = letterb <;> by_cases hB : e = letterB <;> simp [hbs, hb, hB]
  · simp [hbs]

/-- A run of text or of binary data. -/
theorem readRun_sim (h : Left buf i (c :: s)) :
    Sim (StrRead buf)
      (if decide (c = bs ∧ (s.head? = some letterb ∨ s.head? = some letterB)) = true then readBinary grant buf i
        else readEscaped grant buf .text i)
      (if c = bs ∧ (s.head? = some letterb ∨ s.head? = some letterB) then Terseml.readBinary (c :: s)
        else Terseml.readEscaped .text (c :: s)) := by
  by_cases hletter : c = bs ∧ (s.head? = some letterb ∨ s.head? = some letterB)
  · rw [if_pos (decide_eq_true hletter), if_pos hletter]
    obtain ⟨rfl, -⟩ := hletter
    exact readBinary_sim h
  · rw [if_neg (by simpa using hletter), if_neg hletter]
    exact readEscaped_sim h

theorem decodeChildren_sim {fuel : Nat} (ihElement : ElementsAlike grant buf fuel)
    (ih : ChildrenAlike grant buf fuel) : ChildrenAlike grant buf (fuel + 1) := by
  intro depth i s kids cap h
  rw [decodeChildren]
  cases s with
  | nil =>
    rw [if_pos (by have := h.lt_iff; simp at this; omega), Terseml.decodeChildren]
    exact Sim.malformed
  | cons c s =>
    have hlt := lt_length h.drop
    rw [if_neg (by omega), load_eq h.drop, pure_bind, Terseml.decodeChildren]
    by_cases hclose : c = rbr
    · rw [if_pos hclose, if_pos hclose]
      exact Sim.keep_bind (Sim.pure ⟨[], by simp, trivial, rfl, h.succ⟩)
    rw [if_neg hclose, if_neg hclose]
    by_cases hopen : c = lbr
    · rw [if_pos hopen, if_pos hopen]
      refine (ihElement h).bind ?_
      rintro ⟨child, j⟩ ⟨child', s₁⟩ ⟨hinside, hnode, hleft⟩
      refine Sim.grow_bind fun cap => (ih _ _ hleft).bind_right ?_
      rintro ⟨_, k⟩ ⟨more', s₂⟩ ⟨more, rfl, hmore, hnodes, hleft'⟩
      refine ⟨_, rfl, child :: more, by simp, ⟨hinside, hmore⟩, ?_, hleft'⟩
      rw [nodesOf, hnode, hnodes]
    rw [if_neg hopen, if_neg hopen, test_binary h, pure_bind]
    refine (readRun_sim h).bind ?_
    rintro ⟨t, j⟩ ⟨t', s₁⟩ ⟨ht, hleft⟩
    dsimp only at ht hleft ⊢
    rw [ht.len_eq]
    by_cases hempty : t' = []
    · rw [if_pos (by rw [hempty]; rfl)]
      refine (ih _ _ hleft).bind_right ?_
      rintro ⟨_, k⟩ ⟨more', s₂⟩ ⟨more, rfl, hmore, hnodes, hleft'⟩
      refine ⟨_, rfl, more, rfl, hmore, ?_, hleft'⟩
      rw [if_pos hempty, hnodes]
    · rw [if_neg (by simpa using hempty)]
      refine Sim.alloc_bind (Sim.grow_bind fun cap => (ih _ _ hleft).bind_right ?_)
      rintro ⟨_, k⟩ ⟨more', s₂⟩ ⟨more, rfl, hmore, hnodes, hleft'⟩
      refine ⟨_, rfl, .text t :: more, by simp, ⟨ht.inside, hmore⟩, ?_, hleft'⟩
      rw [if_neg hempty, nodesOf, Tree.node, ht.bytes, hnodes]

end Children

/-- The decoder in memory builds what the decoder on lists builds. -/
theorem decode_sim (fuel : Nat) : ElementsAlike grant buf fuel ∧ ChildrenAlike grant buf fuel := by
  induction fuel with
  | zero =>
    refine ⟨fun _ => ?_, fun _ _ _ => ?_⟩
    · rw [decodeElement, Terseml.decodeElement]
      exact Sim.throw .fuel
    · rw [decodeChildren, Terseml.decodeChildren]
      exact Sim.throw .fuel
  | succ fuel ih => exact ⟨decodeElement_sim ih.2, decodeChildren_sim ih.1 ih.2⟩

theorem start_left (buf : List UInt8) : Left buf 0 buf := ⟨Nat.zero_le _, rfl⟩

theorem tsmlDecode_sim : Sim (fun t n => t.Inside buf.length ∧ t.node buf = n) (tsmlDecode grant buf)
    (Terseml.tsmlDecode buf) := by
  refine Sim.alloc_bind (((decode_sim (decodeFuel buf)).1 (start_left buf)).bind ?_)
  rintro ⟨root, i⟩ ⟨n, rest⟩ ⟨hinside, hnode, hleft⟩
  have hlen := length_of_drop hleft.le hleft.drop
  dsimp only at hlen ⊢
  by_cases hrest : rest = []
  · rw [if_neg (by simp [hrest] at hlen; omega), if_neg (not_not.mpr hrest), pushRoot, bind_assoc]
    exact Sim.grow_bind fun cap => by
      rw [pure_bind]
      exact Sim.pure ⟨hinside, hnode⟩
  · have hpos := List.length_pos_iff.mpr hrest
    rw [if_pos (by omega), if_pos hrest]
    exact Sim.malformed

theorem decodeRoots_sim (fuel : Nat) (h : Left buf i s) (roots : List Tree) (cap : Nat) :
    Sim (fun ts ns => ∃ more, ts = roots ++ more ∧ treesInside buf.length more ∧ nodesOf buf more = ns)
      (decodeRoots grant buf fuel i roots cap) (Terseml.decodeRoots fuel s) := by
  induction fuel generalizing i s roots cap with
  | zero =>
    rw [decodeRoots, Terseml.decodeRoots]
    exact Sim.throw .fuel
  | succ fuel ih =>
    have hlen := length_of_drop h.le h.drop
    rw [decodeRoots]
    cases s with
    | nil =>
      rw [List.length_nil] at hlen
      rw [if_neg (by omega), Terseml.decodeRoots]
      exact Sim.pure ⟨[], by simp, trivial, rfl⟩
    | cons c s =>
      rw [List.length_cons] at hlen
      rw [if_pos (by omega), Terseml.decodeRoots, show buf.length - i = s.length + 1 by omega]
      refine ((decode_sim _).1 h).bind ?_
      rintro ⟨root, j⟩ ⟨n, rest⟩ ⟨hinside, hnode, hleft⟩
      dsimp only
      rw [pushRoot, bind_assoc]
      refine Sim.grow_bind fun cap => ?_
      rw [pure_bind]
      refine (ih hleft _ _).bind_right ?_
      rintro _ ns ⟨more, rfl, hmore, hnodes⟩
      refine ⟨_, rfl, root :: more, by simp, ⟨hinside, hmore⟩, ?_⟩
      rw [nodesOf, hnode, hnodes]

theorem tsmlDecodeDocument_sim :
    Sim (fun ts ns => treesInside buf.length ts ∧ nodesOf buf ts = ns) (tsmlDecodeDocument grant buf)
      (Terseml.tsmlDecodeDocument buf) := by
  refine Sim.alloc_bind ((decodeRoots_sim (buf.length + 1) (start_left buf) [] 0).bind ?_)
  rintro roots ns ⟨_, rfl, hinside, hnodes⟩
  have hempty : roots = [] ↔ ns = [] := by
    rw [← hnodes]
    cases roots <;> simp [nodesOf]
  by_cases hns : ns = []
  · rw [if_pos (hempty.mpr hns), if_pos hns]
    exact Sim.malformed
  · rw [if_neg fun h => hns (hempty.mp h), if_neg hns]
    exact Sim.pure ⟨hinside, hnodes⟩

end Trees

/-! ## The decoder is safe -/

/-- Nothing has been allocated. -/
def Arena.empty : Arena := ⟨0, []⟩

/-- What has been allocated when a call ends. -/
def arenaOf {α : Type} : EStateM.Result Halt Arena α → Arena
  | .ok _ a => a
  | .error _ a => a

/-- The call comes to an end, reads no byte behind the end of the input and writes none behind the end
of a buffer; it writes every byte of every buffer, and what it returns points into the input. -/
structure SafeCall {α : Type} (inside : α → Prop) (r : EStateM.Result Halt Arena α) : Prop where
  ends : ∀ a, r ≠ .error .fuel a
  noFault : ∀ a, r ≠ .error .fault a
  full : ∀ b ∈ (arenaOf r).buffers, b.written.length = b.size
  inside : ∀ v a, r = .ok v a → inside v

theorem Sim.safeCall {α β : Type} {R : α → β → Prop} {inside : α → Prop} {x : Dec α} {y : Except TsmlStop β}
    (h : Sim R x y) (hfuel : y ≠ .error .fuel) (hR : ∀ v w, R v w → inside v) :
    SafeCall inside (x Arena.empty) := by
  have hx := h Arena.empty (by simp [Arena.Full, Arena.empty])
  cases hxa : x Arena.empty with
  | ok v a =>
    rw [hxa] at hx
    obtain ⟨ha, w, -, hvw⟩ := hx
    refine ⟨by simp, by simp, ha, fun v' a' hv => ?_⟩
    obtain ⟨rfl, -⟩ : v = v' ∧ a = a' := by simpa using hv
    exact hR v w hvw
  | error e a =>
    rw [hxa] at hx
    obtain ⟨ha, hcase⟩ := hx
    refine ⟨fun a' he => ?_, fun a' he => ?_, ha, by simp⟩
    · obtain ⟨rfl, -⟩ : e = .fuel ∧ a = a' := by simpa using he
      obtain hcase | ⟨_ | _, hy, hstop⟩ := hcase
      · cases hcase
      · cases hstop
      · exact hfuel hy
    · obtain ⟨rfl, -⟩ : e = .fault ∧ a = a' := by simpa using he
      obtain hcase | ⟨_ | _, hy, hstop⟩ := hcase
      · cases hcase
      · cases hstop
      · cases hstop

/-- `tsml_decode` and `tsml_decode_document` are safe on all bytes, whichever requests for memory are
granted. -/
theorem decoders_safe (grant : Nat → Bool) (buf : List UInt8) :
    SafeCall (Tree.Inside buf.length) (tsmlDecode grant buf Arena.empty) ∧
      SafeCall (treesInside buf.length) (tsmlDecodeDocument grant buf Arena.empty) :=
  ⟨tsmlDecode_sim.safeCall tsmlDecode_ne_fuel fun _ _ h => h.1,
    tsmlDecodeDocument_sim.safeCall tsmlDecodeDocument_ne_fuel fun _ _ h => h.1⟩

/-- The tree in memory is the one that is read from the list of bytes. -/
theorem tsmlDecode_node {grant : Nat → Bool} {buf : List UInt8} {t : Tree} {a : Arena}
    (h : tsmlDecode grant buf Arena.empty = .ok t a) : Terseml.tsmlDecode buf = .ok (t.node buf) := by
  have hsim : Sim (fun t n => t.Inside buf.length ∧ t.node buf = n) (tsmlDecode grant buf) (Terseml.tsmlDecode buf) :=
    tsmlDecode_sim
  have hrun := hsim Arena.empty (by simp [Arena.Full, Arena.empty])
  rw [h] at hrun
  obtain ⟨-, n, hn, -, rfl⟩ := hrun
  exact hn

end Terseml.Memory
