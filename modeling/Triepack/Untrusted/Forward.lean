import Mathlib.Data.List.Forall2
import Mathlib.Order.Interval.Set.Disjoint
import Triepack.Untrusted.Termination
import Mathlib.Order.CompletePartialOrder

/-!
# Walks that never run backwards

While an iterator is drained, subtrees are entered one behind the other and every BRANCH stays
inside the subtree it is found in, as long as no symbol crosses the end of its subtree and no SKIP
leads out of its parent's. Nothing in the walk checks that: a length that wraps around leads it
back to bits it has walked before.
-/

namespace Triepack

open BitString WhileLoop

/-- The bits a frame spans, from its next child to the end of its subtree. -/
def IterFrame.region (f : IterFrame) : Set Nat := Set.Ico f.nextChildPos f.subtreeEnd

/-- Bits that were walked, from where a subtree was entered. -/
structure Span where
  start : Nat
  stop : Nat
  deriving DecidableEq, Repr

def Span.bits (s : Span) : Set Nat := Set.Ico s.start s.stop

/-- An iterator between two iterations of the loop of `tp_iter_next`, and what the calls have done
since its start: the frames of the stack as they were pushed, what was walked of the subtree that
was entered last and of those before it, latest first, and the keys that were yielded. -/
structure Drain where
  mode : IterMode
  it : Iter
  r : Reader
  opened : List IterFrame
  span : Span
  spans : List Span
  items : List IterItem

/-- The frames as they were pushed, when some were popped or one has been pushed. -/
def reopen (opened stack : List IterFrame) : List IterFrame :=
  stack.take (stack.length - opened.length) ++ opened.drop (opened.length - stack.length)

/-- An iteration enters a subtree, walks on in it, or yields a key, behind which the next call
begins. -/
def Drain.after (w : Drain) (out : IterMode ⊕ IterItem) (it : Iter) (r : Reader) : Drain where
  mode := match out with
    | .inl mode => mode
    | .inr _ => .sibling
  it := it
  r := match out with
    | .inl _ => r
    | .inr _ => bsReaderCreate it.dict.buf
  opened := reopen w.opened it.stack
  span := match w.mode with
    | .sibling => ⟨it.pos, it.pos⟩
    | .walk _ => ⟨w.span.start, r.pos⟩
  spans := match w.mode with
    | .sibling => w.span :: w.spans
    | .walk _ => w.spans
  items := match out with
    | .inl _ => w.items
    | .inr item => item :: w.items

def Drain.step (w : Drain) : Option Drain :=
  match iterBody w.mode (w.it, w.r) with
  | (.error _, _) => none
  | (.ok out, it, r) => some (w.after out it r)

/-- The first call enters the whole subtree of the iterator. -/
def Drain.atRoot (it : Iter) : Drain where
  mode := .walk it.rootEnd
  it := { it with started := true, pos := it.rootPos, keyLen := it.rootKeyLen }
  r := { bsReaderCreate it.dict.buf with pos := it.rootPos }
  opened := []
  span := ⟨it.rootPos, it.rootPos⟩
  spans := []
  items := []

/-- The runs of calls on an iterator whose iterations all begin in a state of some kind. -/
inductive DrainRun (P : Drain → Prop) (it : Iter) : Drain → Prop
  | start (notDone : it.done = false) (numKeys : it.dict.info.numKeys ≠ 0)
      (le : it.rootPos ≤ (bsReaderCreate it.dict.buf).bitLen) : DrainRun P it (Drain.atRoot it)
  | step {w w' : Drain} (h : DrainRun P it w) (kind : P w) (next : w.step = some w') :
      DrainRun P it w'

/-- What the frames of the stack spanned when they were pushed, and the whole subtree. -/
def Drain.regions (it₀ : Iter) (w : Drain) : List (Set Nat) :=
  w.opened.map IterFrame.region ++ [Set.Ico it₀.rootPos it₀.rootEnd]

/-- Frames lie inside the ones they were pushed upon (as those were then: with a child entered, the
next child of its parent is behind it), subtrees are entered at greater and greater positions, no
bit is walked in two of them, and there are no more keys than bits. -/
structure Drain.Forward (it₀ : Iter) (w : Drain) : Prop where
  kept : List.Forall₂ (fun f pushed => f.region ⊆ pushed.region) w.it.stack w.opened
  nested : (w.regions it₀).Pairwise fun inner outer => inner ⊆ outer
  increasing : (w.span :: w.spans).Pairwise fun later earlier => earlier.start < later.start
  apart : (w.span :: w.spans).Pairwise fun later earlier => Disjoint earlier.bits later.bits
  few : w.items.length ≤ 8 * it₀.dict.buf.length

/-! ## Reads that stay in their subtree -/

/-- The count of a BRANCH ends in the subtree. -/
def CountFits (subtreeEnd : Nat) (r : Reader) : Prop :=
  ∀ n r', bsReadVarintU r = (.ok n, r') → r'.pos ≤ subtreeEnd

/-- When the subtree goes on behind a terminal, its BRANCH ends in it. -/
def BranchFits (d : Dict) (subtreeEnd : Nat) (r : Reader) : Prop :=
  r.pos < subtreeEnd → ∀ r', bsReadBits d.sym.bitsPerSymbol r = (.ok (d.sym.ctrlCodes .branch), r') →
    CountFits subtreeEnd r'

/-- A symbol ends in the subtree, and so do its index, its count and the BRANCH behind it. -/
def SymbolFits (d : Dict) (subtreeEnd : Nat) (r : Reader) : Prop :=
  r.pos < subtreeEnd → ∀ code r', bsReadBits d.sym.bitsPerSymbol r = (.ok code, r') →
    r'.pos ≤ subtreeEnd ∧
    (code = d.sym.ctrlCodes .endVal → ∀ vi r'', bsReadVarintU r' = (.ok vi, r'') →
      r''.pos ≤ subtreeEnd ∧ BranchFits d subtreeEnd r'') ∧
    (d.sym.IsTerminal code → code ≠ d.sym.ctrlCodes .endVal → BranchFits d subtreeEnd r') ∧
    (¬ d.sym.IsTerminal code → code = d.sym.ctrlCodes .branch → CountFits subtreeEnd r')

/-- The next child of a frame begins before the frame's subtree ends. Unless it is the last, its
length, without wrapping around, ends it before that too, and the last but one is not empty. -/
def ChildFits (d : Dict) (f : IterFrame) (r : Reader) : Prop :=
  if f.remaining ≤ 1 then f.nextChildPos < f.subtreeEnd
  else ∀ r₁ r₂ dist,
    bsReadBits d.sym.bitsPerSymbol { r with pos := f.nextChildPos } =
      (.ok (d.sym.ctrlCodes .skip), r₁) →
    bsReadVarintU r₁ = (.ok dist, r₂) →
      r₂.pos + dist < 2 ^ 64 ∧ r₂.pos + dist < f.subtreeEnd ∧ (f.remaining = 2 → 0 < dist)

/-- What the next iteration reads stays in its subtree, and leads to places in it. -/
def Drain.Fits (w : Drain) : Prop :=
  match w.mode with
  | .sibling => ∀ f frames, (w.it.stack.dropWhile fun f => f.remaining == 0) = f :: frames →
      ChildFits w.it.dict f w.r
  | .walk subtreeEnd => SymbolFits w.it.dict subtreeEnd w.r

/-! ## What an iteration keeps -/

theorem reopen_of_length {opened stack : List IterFrame} (h : stack.length = opened.length) :
    reopen opened stack = opened := by
  simp [reopen, h]

theorem reopen_push {opened stack : List IterFrame} (h : stack.length = opened.length)
    (f : IterFrame) : reopen opened (f :: stack) = f :: opened := by
  simp [reopen, h]

theorem reopen_of_le {opened stack : List IterFrame} (h : stack.length ≤ opened.length) :
    reopen opened stack = opened.drop (opened.length - stack.length) := by
  simp [reopen, Nat.sub_eq_zero_of_le h]

/-- A frame with children left has them behind all that was walked, and the frames upon it end in
front of the next one. -/
structure Drain.Ordered (it₀ : Iter) (w : Drain) : Prop where
  ready : It.Ready it₀.dict (w.it, w.r)
  kept : List.Forall₂ (fun f pushed => f.region ⊆ pushed.region) w.it.stack w.opened
  nested : (w.regions it₀).Pairwise fun inner outer => inner ⊆ outer
  upon : w.it.stack.Pairwise fun f g => g.remaining ≠ 0 → f.subtreeEnd ≤ g.nextChildPos
  ahead : ∀ g ∈ w.it.stack, g.remaining ≠ 0 →
    w.span.stop ≤ g.nextChildPos ∧ (g.remaining = 1 → w.span.start < g.nextChildPos)
  order : (w.span :: w.spans).Pairwise fun later earlier =>
    earlier.start < later.start ∧ earlier.stop ≤ later.start
  start_le : w.span.start ≤ w.span.stop
  stop_le : w.span.stop ≤ 8 * it₀.dict.buf.length
  few : w.items.length ≤ w.span.stop

/-- In a subtree, whose end is in front of the next child of every frame. -/
structure Drain.Inside (it₀ : Iter) (w : Drain) (subtreeEnd : Nat) : Prop where
  ordered : w.Ordered it₀
  stop_eq : w.span.stop = w.r.pos
  inside : ∀ region ∈ w.regions it₀, Set.Ico w.r.pos subtreeEnd ⊆ region
  front : ∀ g ∈ w.it.stack, g.remaining ≠ 0 → subtreeEnd ≤ g.nextChildPos
  few : w.items.length ≤ w.span.start

def Drain.Inv (it₀ : Iter) (w : Drain) : Prop :=
  match w.mode with
  | .sibling => w.Ordered it₀
  | .walk subtreeEnd => w.Inside it₀ subtreeEnd

theorem remaining_ne_zero {f : IterFrame} {stack frames : List IterFrame}
    (h : (stack.dropWhile fun f => f.remaining == 0) = f :: frames) : f.remaining ≠ 0 := by
  have hhead := List.head?_dropWhile_not (fun f : IterFrame => f.remaining == 0) stack
  rw [h] at hhead
  simpa using hhead

/-- The next child is inside the buffer. -/
theorem iterSibling_seek {it : Iter} {r : Reader} {mode : IterMode} {s : Iter × Reader}
    {f : IterFrame} {frames : List IterFrame} (h : iterSibling (it, r) = (.ok mode, s))
    (hdrop : (it.stack.dropWhile fun f => f.remaining == 0) = f :: frames) :
    f.nextChildPos ≤ r.bitLen := by
  rw [iterSibling, It.modify_bind, It.get_bind] at h
  simp only [hdrop] at h
  rw [It.modify_bind] at h
  obtain ⟨_, _, htake, _⟩ := Op.bind_eq_ok h
  obtain ⟨_, _, hseek, _⟩ := It.rd_bind_eq_ok htake
  exact (bsReaderSeek_eq_ok hseek).1

section Step

variable {it₀ : Iter} {w w' : Drain} {subtreeEnd p : Nat}

/-- Reading on in a subtree. -/
theorem Drain.Inside.readOn (h : w.Inside it₀ subtreeEnd) (hready : It.Ready it₀.dict (w'.it, w'.r))
    (hstack : w'.it.stack = w.it.stack) (hopened : w'.opened = w.opened)
    (hspan : w'.span = ⟨w.span.start, p⟩) (hspans : w'.spans = w.spans)
    (hp : p = w.r.pos ∨ w.r.pos ≤ p ∧ p ≤ subtreeEnd) (hlen : p ≤ 8 * it₀.dict.buf.length)
    (hitems : w'.items.length ≤ p) : w'.Ordered it₀ := by
  have hstart := h.ordered.start_le
  have hstop := h.stop_eq
  have horder := h.ordered.order
  rw [List.pairwise_cons] at horder
  refine ⟨hready, ?_, ?_, ?_, ?_, ?_, ?_, ?_, ?_⟩
  · rw [hstack, hopened]
    exact h.ordered.kept
  · rw [Drain.regions, hopened]
    exact h.ordered.nested
  · rw [hstack]
    exact h.ordered.upon
  · intro g hg hrem
    rw [hstack] at hg
    have hfront := h.front g hg hrem
    obtain ⟨hahead, hone⟩ := h.ordered.ahead g hg hrem
    rw [hspan]
    refine ⟨?_, hone⟩
    simp only
    omega
  · rw [hspan, hspans, List.pairwise_cons]
    exact horder
  · rw [hspan]
    simp only
    omega
  · rwa [hspan]
  · rwa [hspan]

/-- A BRANCH in the subtree. -/
theorem Drain.Inside.push (h : w.Inside it₀ subtreeEnd) (hready : It.Ready it₀.dict (w'.it, w'.r))
    {f : IterFrame} (hend : f.subtreeEnd = subtreeEnd) (hnext : f.nextChildPos = p)
    (hstack : w'.it.stack = f :: w.it.stack) (hopened : w'.opened = f :: w.opened)
    (hspan : w'.span = ⟨w.span.start, p⟩) (hspans : w'.spans = w.spans)
    (hp : w.r.pos < p) (hp' : p ≤ subtreeEnd) (hlen : p ≤ 8 * it₀.dict.buf.length)
    (hitems : w'.items.length ≤ p) : w'.Ordered it₀ := by
  have hstart := h.ordered.start_le
  have hstop := h.stop_eq
  have horder := h.ordered.order
  rw [List.pairwise_cons] at horder
  refine ⟨hready, ?_, ?_, ?_, ?_, ?_, ?_, ?_, ?_⟩
  · rw [hstack, hopened]
    exact .cons (fun _ hx => hx) h.ordered.kept
  · rw [Drain.regions, hopened, List.map_cons, List.cons_append, List.pairwise_cons]
    refine ⟨?_, h.ordered.nested⟩
    intro region hregion
    have hinside := h.inside region hregion
    refine (Set.Ico_subset_Ico ?_ ?_).trans hinside
    · omega
    · omega
  · rw [hstack, List.pairwise_cons]
    refine ⟨?_, h.ordered.upon⟩
    intro g hg hrem
    rw [hend]
    exact h.front g hg hrem
  · intro g hg hrem
    rw [hspan]
    rw [hstack, List.mem_cons] at hg
    obtain rfl | hg := hg
    · simp only
      omega
    · have hfront := h.front g hg hrem
      obtain ⟨_, hone⟩ := h.ordered.ahead g hg hrem
      refine ⟨?_, hone⟩
      simp only
      omega
  · rw [hspan, hspans, List.pairwise_cons]
    exact horder
  · rw [hspan]
    simp only
    omega
  · rwa [hspan]
  · rwa [hspan]

/-- A child in front of which the finished frames are popped. -/
theorem Drain.Ordered.enter (h : w.Ordered it₀) {f : IterFrame} {frames : List IterFrame}
    (hdrop : (w.it.stack.dropWhile fun f => f.remaining == 0) = f :: frames) {n : Nat}
    (hready : It.Ready it₀.dict (w'.it, w'.r))
    (hstack : w'.it.stack =
      { f with nextChildPos := n, remaining := f.remaining - 1 } :: frames)
    (hopened : w'.opened = reopen w.opened w'.it.stack) (hspan : w'.span = ⟨p, p⟩)
    (hspans : w'.spans = w.span :: w.spans) (hitems : w'.items = w.items) (hr : w'.r.pos = p)
    (hn : f.nextChildPos ≤ n) (hp : f.nextChildPos ≤ p)
    (hlt : f.remaining ≠ 1 → f.nextChildPos < p) (hsub : p < f.subtreeEnd)
    (hend : subtreeEnd ≤ f.subtreeEnd)
    (hnext : f.remaining ≠ 1 → subtreeEnd ≤ n ∧ p ≤ n ∧ (f.remaining = 2 → p < n))
    (hlen : p ≤ 8 * it₀.dict.buf.length) : w'.Inside it₀ subtreeEnd := by
  have hrem := remaining_ne_zero hdrop
  obtain ⟨finished, hfinished⟩ := List.dropWhile_suffix (l := w.it.stack)
    fun f : IterFrame => f.remaining == 0
  rw [hdrop] at hfinished
  have hmem : ∀ g ∈ f :: frames, g ∈ w.it.stack := by
    intro g hg
    rw [← hfinished]
    exact List.mem_append_right _ hg
  -- the frames that are left, as they are and as they were pushed
  have hkept := List.forall₂_drop finished.length h.kept
  rw [← hfinished, List.drop_left, List.forall₂_cons_left_iff] at hkept
  obtain ⟨pushed, others, hpushed, hothers, hleft⟩ := hkept
  have hopened' : w'.opened = pushed :: others := by
    have hlength := h.kept.length_eq
    rw [← hfinished, List.length_append, List.length_cons] at hlength
    rw [hopened, hstack, reopen_of_le (by simp only [List.length_cons]; omega), ← hleft]
    congr 1
    simp only [List.length_cons]
    omega
  have hnested : (w'.regions it₀).Pairwise fun inner outer => inner ⊆ outer := by
    refine h.nested.sublist (List.Sublist.append_right ?_ _)
    rw [hopened', ← hleft]
    exact (List.drop_sublist _ _).map _
  have hupon := h.upon
  rw [← hfinished, List.pairwise_append, List.pairwise_cons] at hupon
  obtain ⟨_, ⟨hupon, hupons⟩, _⟩ := hupon
  have hahead := h.ahead f (hmem f List.mem_cons_self) hrem
  have hstart := h.start_le
  have hbefore : w.span.start < p ∧ w.span.stop ≤ p := by
    by_cases hone : f.remaining = 1
    · have hstart' := hahead.2 hone
      omega
    · have hlt' := hlt hone
      omega
  have hordered : w'.Ordered it₀ := by
    refine ⟨hready, ?_, hnested, ?_, ?_, ?_, ?_, ?_, ?_⟩
    · rw [hstack, hopened']
      exact .cons ((Set.Ico_subset_Ico hn (Nat.le_refl _)).trans hpushed) hothers
    · rw [hstack]
      exact List.pairwise_cons.mpr ⟨hupon, hupons⟩
    · intro g hg hrem'
      rw [hspan]
      rw [hstack, List.mem_cons] at hg
      obtain rfl | hg := hg
      · simp only at hrem' ⊢
        obtain ⟨_, hle, htwo⟩ := hnext (by omega)
        exact ⟨hle, fun hone => htwo (by omega)⟩
      · have hfront := hupon g hg hrem'
        simp only
        omega
    · rw [hspan, hspans, List.pairwise_cons]
      refine ⟨?_, h.order⟩
      intro earlier hearlier
      obtain rfl | hearlier := List.mem_cons.mp hearlier
      · exact hbefore
      · have horder := (List.pairwise_cons.mp h.order).1 earlier hearlier
        simp only
        omega
    · rw [hspan]
    · rwa [hspan]
    · rw [hitems, hspan]
      have hfew := h.few
      simp only
      omega
  refine ⟨hordered, ?_, ?_, ?_, ?_⟩
  · rw [hspan, hr]
  · intro region hregion
    rw [hr]
    have hchild : Set.Ico p subtreeEnd ⊆ pushed.region :=
      (Set.Ico_subset_Ico hp hend).trans hpushed
    rw [Drain.regions, hopened', List.map_cons, List.cons_append, List.mem_cons] at hregion
    obtain rfl | hregion := hregion
    · exact hchild
    · rw [Drain.regions, hopened', List.map_cons, List.cons_append, List.pairwise_cons] at hnested
      exact hchild.trans (hnested.1 region hregion)
  · intro g hg hrem'
    rw [hstack, List.mem_cons] at hg
    obtain rfl | hg := hg
    · simp only at hrem' ⊢
      exact (hnext (by omega)).1
    · have hfront := hupon g hg hrem'
      omega
  · rw [hitems, hspan]
    have hfew := h.few
    simp only
    omega

/-- An iteration that finds a child. -/
theorem Drain.Ordered.step (hd : it₀.dict.Sound) (h : w.Ordered it₀) (hmode : w.mode = .sibling)
    (hfits : w.Fits) (hstep : w.step = some w') : w'.Inv it₀ := by
  obtain ⟨mode, it, r, opened, span, spans, items⟩ := w
  obtain rfl : mode = .sibling := hmode
  have hdict : it.dict = it₀.dict := h.ready.dict_eq
  have hsound : r.Sound := h.ready.sound
  have hsafe := iterBody_safe hd .sibling (it, r) h.ready
  unfold Drain.step at hstep
  rcases hbody : iterBody .sibling (it, r) with ⟨e | out, it', r'⟩
  · simp [hbody] at hstep
  rw [hbody] at hsafe
  simp only [hbody, Option.some.injEq] at hstep
  subst hstep
  obtain ⟨mode', s', hsib, hout⟩ := Op.bind_eq_ok hbody
  obtain ⟨rfl, rfl⟩ : .inl mode' = out ∧ s' = (it', r') := by simpa using hout
  obtain ⟨f, frames, hdrop, hcase⟩ := iterSibling_eq_ok hsib
  have hseek := iterSibling_seek hsib hdrop
  have hchild := hfits f frames hdrop
  have hr' : r'.Sound := hsafe.1.sound
  have hbits := hr'.bitLen_eq
  have hle := hr'.pos_le
  rw [hsafe.1.buf_eq] at hbits
  obtain ⟨hlast, rfl, hs⟩ | ⟨hmany, r₁, r₂, dist, hskip, hdist, rfl, hs⟩ := hcase
  · obtain ⟨rfl, rfl⟩ := Prod.mk.inj hs
    rw [ChildFits, if_pos hlast] at hchild
    have hrem := remaining_ne_zero hdrop
    refine h.enter (p := f.nextChildPos) hdrop hsafe.1 rfl rfl rfl rfl rfl rfl (Nat.le_refl _)
      (Nat.le_refl _) ?_ hchild (Nat.le_refl _) ?_ ?_
    · omega
    · omega
    · simp only at hle hbits
      omega
  · obtain ⟨rfl, rfl⟩ := Prod.mk.inj hs
    rw [ChildFits, if_neg (by omega)] at hchild
    obtain ⟨hwrap, hsub, htwo⟩ := hchild r₁ r' dist hskip hdist
    have hlow := hd.one_le
    have hhigh := hd.le_eight
    obtain ⟨hlt, hsound₁, _⟩ := pos_lt_of_readBits (by rw [hdict]; omega) (by rw [hdict]; omega)
      (hsound.move hseek) hskip
    obtain ⟨hlt', _, _⟩ := pos_lt_of_readVarint hsound₁ hdist
    simp only at hlt
    rw [← u64_of_lt hwrap] at hsub
    refine h.enter (p := r'.pos) hdrop hsafe.1 rfl rfl rfl rfl rfl rfl ?_ ?_ ?_ ?_ hsub.le ?_ ?_
    · rw [u64_of_lt hwrap]
      omega
    · omega
    · omega
    · rw [u64_of_lt hwrap] at hsub
      omega
    · intro _
      rw [u64_of_lt hwrap]
      omega
    · omega

/-- An iteration in a subtree. -/
theorem Drain.Inside.step (hd : it₀.dict.Sound) (h : w.Inside it₀ subtreeEnd)
    (hmode : w.mode = .walk subtreeEnd) (hfits : w.Fits) (hstep : w.step = some w') :
    w'.Inv it₀ := by
  obtain ⟨mode, it, r, opened, span, spans, items⟩ := w
  obtain rfl : mode = .walk subtreeEnd := hmode
  have hdict : it.dict = it₀.dict := h.ordered.ready.dict_eq
  have hsound : r.Sound := h.ordered.ready.sound
  have hsafe := iterBody_safe hd (.walk subtreeEnd) (it, r) h.ordered.ready
  have hlow := hd.one_le
  have hhigh := hd.le_eight
  have hfew : items.length ≤ span.start := h.few
  have hstart : span.start ≤ r.pos := h.ordered.start_le.trans h.stop_eq.le
  have hkept : it.stack.length = opened.length := h.ordered.kept.length_eq
  unfold Drain.step at hstep
  rcases hbody : iterBody (.walk subtreeEnd) (it, r) with ⟨e | out, it', r'⟩
  · simp [hbody] at hstep
  rw [hbody] at hsafe
  simp only [hbody, Option.some.injEq] at hstep
  subst hstep
  have hr' : r'.Sound := hsafe.1.sound
  have hbits := hr'.bitLen_eq
  have hle := hr'.pos_le
  rw [hsafe.1.buf_eq] at hbits
  have hlen : r'.pos ≤ 8 * it₀.dict.buf.length := by omega
  have hread : ∀ {code : Nat} {t : Reader},
      bsReadBits it.dict.sym.bitsPerSymbol r = (.ok code, t) → r.pos < t.pos ∧ t.Sound := by
    intro code t read
    obtain ⟨hlt, ht, _⟩ := pos_lt_of_readBits (by rw [hdict]; omega) (by rw [hdict]; omega)
      hsound read
    exact ⟨hlt, ht⟩
  cases iterWalk_eq_ok hbody with
  | leave ge =>
    exact h.readOn hsafe.1 rfl (reopen_of_length hkept) rfl rfl (.inl rfl) hlen
      (hfew.trans hstart)
  | @byte code r' b lt read =>
    obtain ⟨hend, _⟩ := hfits lt code r' read
    obtain ⟨hlt, _⟩ := hread read
    show Drain.Inside it₀ _ subtreeEnd
    refine ⟨h.readOn hsafe.1 rfl (reopen_of_length hkept) rfl rfl (.inr ⟨hlt.le, hend⟩) hlen
      ?_, rfl, ?_, ?_, ?_⟩
    · exact hfew.trans (hstart.trans hlt.le)
    · intro region hregion
      have hopened : reopen opened (it.pushKey b).stack = opened := reopen_of_length hkept
      simp only [Drain.regions, Drain.after, hopened] at hregion
      exact (Set.Ico_subset_Ico hlt.le (Nat.le_refl _)).trans (h.inside region hregion)
    · exact h.front
    · exact hfew
  | @branch r' s lt read notTerminal push =>
    obtain ⟨hend, _, _, hcount⟩ := hfits lt _ r' read
    obtain ⟨hlt, ht⟩ := hread read
    obtain ⟨n, r'', hn, hdepth, hs⟩ := iterPushFrame_eq_ok push
    obtain ⟨rfl, rfl⟩ := Prod.mk.inj hs
    obtain ⟨hlt', _⟩ := pos_lt_of_readVarint ht hn
    have hpast := hlt.trans hlt'
    exact h.push hsafe.1 rfl rfl rfl (reopen_push hkept _) rfl rfl hpast
      (hcount notTerminal rfl n _ hn) hlen (hfew.trans (hstart.trans hpast.le))
  | @yield code t item s lt read isTerminal terminal =>
    obtain ⟨r₁, s₁, hindex, hframe, hvalue⟩ := terminal.parts
    obtain ⟨hend, hindexed, hplain, _⟩ := hfits lt _ t read
    obtain ⟨hlt, ht⟩ := hread read
    -- the terminal with its index
    obtain ⟨hpast, hin, hr₁, hbranch⟩ : r.pos < r₁.pos ∧ r₁.pos ≤ subtreeEnd ∧ r₁.Sound ∧
        BranchFits it.dict subtreeEnd r₁ := by
      obtain ⟨hcode, rfl⟩ | ⟨hcode, vi, hvi⟩ := hindex
      · exact ⟨hlt, hend, ht, hplain isTerminal hcode⟩
      · obtain ⟨hlt', hr₁, _⟩ := pos_lt_of_readVarint ht hvi
        obtain ⟨hin, hbranch⟩ := hindexed hcode vi r₁ hvi
        exact ⟨hlt.trans hlt', hin, hr₁, hbranch⟩
    have hs : it'.stack = s₁.1.stack ∧ r' = s₁.2 := by
      obtain ⟨_, rfl⟩ | ⟨vi, hvalue⟩ := hvalue
      · exact ⟨rfl, rfl⟩
      · obtain ⟨⟨p, i, hs⟩, _⟩ := iterValueAt_eq_ok hvalue
        obtain ⟨rfl, rfl⟩ := Prod.mk.inj hs
        exact ⟨rfl, rfl⟩
    have hready : It.Ready it₀.dict (it', bsReaderCreate it'.dict.buf) := by
      have hdict' : it'.dict = it₀.dict := hsafe.1.dict_eq
      rw [hdict']
      exact ⟨hdict', .create hd.length_lt, rfl⟩
    obtain ⟨_, rfl⟩ | ⟨hmore, r₂, hsym, hpush⟩ := hframe
    · obtain ⟨hstack, rfl⟩ := hs
      refine h.readOn hready hstack ?_ rfl rfl (.inr ⟨hpast.le, hin⟩) hlen ?_
      · rw [Drain.after, hstack, reopen_of_length hkept]
      · exact Nat.succ_le_of_lt ((hfew.trans hstart).trans_lt hpast)
    · obtain ⟨n, r₃, hn, hdepth, rfl⟩ := iterPushFrame_eq_ok hpush
      obtain ⟨hstack, rfl⟩ := hs
      obtain ⟨hlt₂, ht₂, _⟩ := pos_lt_of_readBits (by rw [hdict]; omega) (by rw [hdict]; omega)
        hr₁ hsym
      obtain ⟨hlt₃, _⟩ := pos_lt_of_readVarint ht₂ hn
      have hpast' := hpast.trans (hlt₂.trans hlt₃)
      refine h.push hready rfl rfl hstack ?_ rfl rfl hpast' (hbranch hmore r₂ hsym n _ hn)
        hlen ?_
      · rw [Drain.after, hstack, reopen_push hkept]
      · exact Nat.succ_le_of_lt ((hfew.trans hstart).trans_lt hpast')

end Step

/-! ## The order of a run -/

section Run

variable {d : Dict} {it₀ it : Iter} {w w' : Drain}

theorem Drain.inv_atRoot (hd : it₀.dict.Sound) (hstack : it₀.stack = [])
    (hle : it₀.rootPos ≤ (bsReaderCreate it₀.dict.buf).bitLen) : (Drain.atRoot it₀).Inv it₀ := by
  have hcreate := Reader.Sound.create hd.length_lt
  have hlen : it₀.rootPos ≤ 8 * it₀.dict.buf.length := hle.trans hcreate.bitLen_eq.le
  have hnil : (Drain.atRoot it₀).it.stack = [] := hstack
  show Drain.Inside it₀ _ _
  refine ⟨⟨⟨rfl, hcreate.move hle, rfl⟩, ?_, ?_, ?_, ?_, ?_, Nat.le_refl _, hlen, Nat.zero_le _⟩, rfl,
    ?_, ?_, Nat.zero_le _⟩
  · rw [hnil]
    exact .nil
  · exact List.pairwise_singleton _ _
  · rw [hnil]
    exact .nil
  · rw [hnil]
    simp
  · exact List.pairwise_singleton _ _
  · intro region hregion
    obtain rfl : region = Set.Ico it₀.rootPos it₀.rootEnd := by
      simpa [Drain.regions, Drain.atRoot] using hregion
    exact fun _ hx => hx
  · rw [hnil]
    simp

theorem Drain.Inv.step (hd : it₀.dict.Sound) (h : w.Inv it₀) (hfits : w.Fits)
    (hstep : w.step = some w') : w'.Inv it₀ := by
  unfold Drain.Inv at h
  split at h
  · rename_i hmode
    exact h.step hd hmode hfits hstep
  · rename_i hmode
    exact h.step hd hmode hfits hstep

theorem DrainRun.inv (hd : it₀.dict.Sound) (hstack : it₀.stack = []) (h : DrainRun Drain.Fits it₀ w) :
    w.Inv it₀ := by
  induction h with
  | start notDone numKeys le => exact Drain.inv_atRoot hd hstack le
  | step _ hfits hstep ih => exact ih.step hd hfits hstep

theorem Drain.Inv.ordered (h : w.Inv it₀) : w.Ordered it₀ := by
  unfold Drain.Inv at h
  split at h
  · exact h
  · exact h.ordered

theorem Drain.Ordered.forward (h : w.Ordered it₀) : w.Forward it₀ := by
  refine ⟨h.kept, h.nested, ?_, ?_, ?_⟩
  · exact h.order.imp fun hlt => hlt.1
  · refine h.order.imp ?_
    intro later earlier hlt
    rw [Span.bits, Span.bits, Set.Ico_disjoint_Ico]
    have hstop := hlt.2
    omega
  · have hfew := h.few
    have hstop := h.stop_le
    omega

/-! ## The keys of a drain -/

theorem DrainRun.step_eq {P : Drain → Prop} (hP : ∀ w, DrainRun P it w → P w) (h : DrainRun P it w)
    {out : IterMode ⊕ IterItem} {it' : Iter} {r' : Reader}
    (hbody : iterBody w.mode (w.it, w.r) = (.ok out, it', r')) : DrainRun P it (w.after out it' r') :=
  h.step (hP w h) (by rw [Drain.step, hbody])

theorem DrainRun.started {P : Drain → Prop} (h : DrainRun P it w) : w.it.started = true := by
  induction h with
  | start => rfl
  | @step w w' _ _ hstep ih =>
    unfold Drain.step at hstep
    rcases hbody : iterBody w.mode (w.it, w.r) with ⟨e | out, it', r'⟩
    · simp [hbody] at hstep
    · simp only [hbody, Option.some.injEq] at hstep
      subst hstep
      exact (iterBody_started hbody).trans ih

/-- The run goes on with the loop of a call. -/
theorem DrainRun.reaches {P : Drain → Prop} (hP : ∀ w, DrainRun P it w → P w)
    {s t : IterMode × Iter × Reader} (h : Reaches (Op.loopStep iterBody) s t)
    (hw : DrainRun P it w) (hs : (w.mode, w.it, w.r) = s) :
    ∃ w', DrainRun P it w' ∧ (w'.mode, w'.it, w'.r) = t ∧ w'.items = w.items := by
  induction h generalizing w with
  | refl s => exact ⟨w, hw, hs, rfl⟩
  | @head s t u hstep _ ih =>
    subst hs
    obtain ⟨mode', it', r'⟩ := t
    obtain ⟨w', hw', ht, hitems⟩ := ih (hw.step_eq hP (Op.loopStep_eq_inl hstep)) rfl
    exact ⟨w', hw', ht, hitems⟩

/-- A call that yields a key, from a state its loop is entered in. -/
theorem DrainRun.next {P : Drain → Prop} (hP : ∀ w, DrainRun P it w → P w)
    {s : IterMode × Iter × Reader} (hw : DrainRun P it w) (hs : (w.mode, w.it, w.r) = s)
    {item : IterItem} {it' : Iter} {r' : Reader}
    (h : Returns (Op.loopStep iterBody) s (.ok item, it', r')) :
    ∃ w', DrainRun P it w' ∧ (w'.mode, w'.it, w'.r) = (.sibling, it', bsReaderCreate it'.dict.buf) ∧
      w'.items.length = w.items.length + 1 := by
  obtain ⟨⟨mode, t⟩, hreaches, hexit⟩ := h.exists_exit
  obtain ⟨w₁, hw₁, ht, hitems⟩ := hw.reaches hP hreaches hs
  obtain ⟨rfl, rfl⟩ := Prod.mk.inj ht
  refine ⟨_, hw₁.step_eq hP (Op.loopStep_eq_inr_ok hexit), rfl, ?_⟩
  rw [← hitems]
  rfl

/-- What bounds the keys of every run bounds those of any number of calls, by induction on it. -/
theorem length_keys_le {P : Drain → Prop} (hP : ∀ w, DrainRun P it w → P w) (hd : d.Sound)
    {bound : Nat} (hbound : ∀ w, DrainRun P it w → w.items.length ≤ bound) (n : Nat)
    {k : Nat} {it' : Iter} (hdict : it'.dict = d) (hk : k ≤ bound)
    (hentry : ∀ s, it'.done = false → it'.dict.info.numKeys ≠ 0 → IterEntry it' s →
      ∃ w, DrainRun P it w ∧ (w.mode, w.it, w.r) = s ∧ w.items.length = k) :
    ((iterNextN n it').1.filter Except.isOk).length + k ≤ bound := by
  induction n generalizing it' k with
  | zero => simpa [iterNextN] using hk
  | succ n ih =>
    obtain ⟨hdict', herr⟩ := iterNext_safe hd hdict
    rcases hnext : iterNext it' with ⟨e | item, it₁⟩
    · rw [hnext] at herr
      have hdone := (herr e rfl).2
      simp only [iterNextN, hnext, iterNextN_of_done hdone]
      simp [Except.isOk, Except.toBool, hk]
    · rw [hnext] at hdict'
      obtain ⟨hlive, hkeys, s, r', hs, hreturns⟩ := iterNext_eq_ok hnext
      obtain ⟨w, hw, hstate, hlen⟩ := hentry s hlive hkeys hs
      obtain ⟨w', hw', hstate', hlen'⟩ := hw.next hP hstate hreturns
      have hrest := ih (k := k + 1) hdict' (by rw [← hlen, ← hlen']; exact hbound w' hw') (by
        intro t _ _ ht
        cases ht with
        | first notStarted le =>
          have hstarted := hw'.started
          obtain ⟨_, rfl, _⟩ : _ ∧ w'.it = it₁ ∧ _ := by simpa using hstate'
          rw [notStarted] at hstarted
          simp at hstarted
        | later started => exact ⟨w', hw', hstate', by rw [hlen', hlen]⟩)
      simp only [iterNextN, hnext]
      simp only [List.filter_cons, Except.isOk, Except.toBool] at hrest ⊢
      simp only [if_true, List.length_cons]
      omega

end Run

/-- On every buffer a drain walks forward as far as what is read stays in its subtree, and while it
does so it gives no more keys than the buffer has bits. -/
theorem forward_of_fits {b : Buffer} {checkCrc : Bool} {d : Dict}
    (hopen : dictOpenImpl b.bytes checkCrc = .ok d) {fuel : Nat} {kind : IterKind} {it : Iter}
    (hit : kind.obtain fuel d = .ok it) :
    (∀ w, DrainRun Drain.Fits it w → w.Forward it) ∧
      ((∀ w, DrainRun Drain.Fits it w → w.Fits) →
        ∀ n, ((iterNextN n it).1.filter Except.isOk).length ≤ 8 * b.bytes.length) := by
  obtain ⟨hd, hbuf⟩ := dictOpenImpl_sound hopen
  obtain ⟨rfl, hstack, hnew, _⟩ := IterKind.obtain_eq_ok hit
  have hforward : ∀ w, DrainRun Drain.Fits it w → w.Forward it :=
    fun w hw => (hw.inv hd hstack).ordered.forward
  refine ⟨hforward, fun hfits n => ?_⟩
  have hbound : ∀ w, DrainRun Drain.Fits it w → w.items.length ≤ 8 * b.bytes.length := by
    intro w hw
    rw [← hbuf]
    exact (hforward w hw).few
  refine length_keys_le hfits hd hbound n (k := 0) rfl (Nat.zero_le _) ?_
  intro s hlive hkeys hs
  cases hs with
  | first notStarted le => exact ⟨_, .start hlive hkeys le, rfl, rfl⟩
  | later started =>
    rw [hnew] at started
    simp at started

/-- A few iterations. -/
def Drain.steps : Nat → Drain → Option Drain
  | 0, w => some w
  | n + 1, w => w.step.bind (Drain.steps n)

theorem DrainRun.steps {it : Iter} {w w' : Drain} (h : DrainRun (fun _ => True) it w) (n : Nat)
    (hsteps : w.steps n = some w') : DrainRun (fun _ => True) it w' := by
  induction n generalizing w with
  | zero =>
    obtain rfl : w = w' := by simpa [Drain.steps] using hsteps
    exact h
  | succ n ih =>
    obtain ⟨w₁, hstep, hrest⟩ := Option.bind_eq_some_iff.mp hsteps
    exact ih (h.step trivial hstep) hrest

/-- The child of `cycleFile` ends where its branch begins, and there the last child is entered. -/
theorem not_forward_cycleFile : ∃ d w, dictOpenUnchecked cycleFile = .ok d ∧
    DrainRun (fun _ => True) (dictIterate d) w ∧ ¬ w.Forward (dictIterate d) := by
  have hsteps : (match dictOpenUnchecked cycleFile with
    | .ok d => (match (Drain.atRoot (dictIterate d)).steps 4 with
      | some w => decide (d.info.numKeys ≠ 0 ∧ d.trieStart ≤ (bsReaderCreate d.buf).bitLen ∧
          (w.span :: w.spans).map Span.start = [294, 391, 294])
      | none => false)
    | .error _ => false) = true := by decide +kernel
  rcases hopen : dictOpenUnchecked cycleFile with e | d
  · simp [hopen] at hsteps
  simp only [hopen] at hsteps
  rcases hrun : (Drain.atRoot (dictIterate d)).steps 4 with _ | w
  · simp [hrun] at hsteps
  simp only [hrun, decide_eq_true_eq] at hsteps
  obtain ⟨hkeys, hle, hspans⟩ := hsteps
  have hw : DrainRun (fun _ => True) (dictIterate d) w := (DrainRun.start rfl hkeys hle).steps 4 hrun
  refine ⟨d, w, rfl, hw, ?_⟩
  intro hforward
  have hincreasing : ((w.span :: w.spans).map Span.start).Pairwise fun later earlier =>
      earlier < later := List.pairwise_map.mpr hforward.increasing
  rw [hspans] at hincreasing
  simp at hincreasing

theorem forward_of_fits_cycleFile : ∃ d, dictOpenUnchecked cycleFile = .ok d ∧
    ∀ w, DrainRun Drain.Fits (dictIterate d) w → w.Forward (dictIterate d) := by
  have hsome : (match dictOpenUnchecked cycleFile with
    | .ok _ => true
    | .error _ => false) = true := by decide +kernel
  rcases hopen : dictOpenUnchecked cycleFile with e | d
  · simp [hopen] at hsome
  · exact ⟨d, rfl, (@forward_of_fits ⟨cycleFile, by decide⟩ false d hopen 0 .iterate _ rfl).1⟩

end Triepack
