import Triepack.Core.IterTrie

/-!
# A call of `tp_iter_next` on a built dictionary

`Running` relates an iterator between two calls, or in the middle of one, to the subtrees that
are still to be visited. Its lemmas say how the iterator's own steps move them, and from these
follows what a call returns.
-/

namespace Triepack

open BitString WhileLoop

/-! ## Entering the next sibling -/

section Sibling

variable {d : Dict} (hd : d.Sound) {used : List UInt8} (hcodes : d.sym.Codes used) {it : Iter}
  {f : IterFrame} (frames : List IterFrame) {x : Nat}

include hd

theorem iterTakeChild_last (it : Iter) (x : Nat) (hrem : f.remaining = 1) (hle : f.nextChildPos ≤ 8 * d.buf.length) :
    iterTakeChild f frames (it, d.reader x) = (.ok f.subtreeEnd,
      { it with
        pos := f.nextChildPos
        stack := { f with remaining := f.remaining - 1 } :: frames },
      d.reader f.nextChildPos) := by
  rw [iterTakeChild, It.rd_bind_ok (seek_reader hd hle), It.get_bind,
    if_neg (by omega)]
  rfl

include hcodes in
theorem iterTakeChild_skip (it : Iter) (x : Nat) (hit : it.dict = d) (hrem : 1 < f.remaining) {dist : Nat}
    (hat : At (bytesBits d.buf) f.nextChildPos (skipBits d.sym dist))
    (hle : f.nextChildPos + (skipBits d.sym dist).length + dist ≤ 8 * d.buf.length) :
    iterTakeChild f frames (it, d.reader x) =
      (.ok (f.nextChildPos + (skipBits d.sym dist).length + dist),
        { it with
          pos := f.nextChildPos + (skipBits d.sym dist).length
          stack := { f with
            nextChildPos := f.nextChildPos + (skipBits d.sym dist).length + dist
            remaining := f.remaining - 1 } :: frames },
        d.reader (f.nextChildPos + (skipBits d.sym dist).length)) := by
  subst hit
  have hlen := hd.length_lt
  have hskip : it.dict.sym.ctrlCodes .skip = 2 := hcodes.ctrl _
  have hdist := readVarint_at hd (by omega) hat.right
  rw [length_symbolBits] at hdist
  have hend : f.nextChildPos + (skipBits it.dict.sym dist).length =
      f.nextChildPos + it.dict.sym.bitsPerSymbol + (Leb128.bits dist).length := by
    rw [skipBits, List.length_append, length_symbolBits, Nat.add_assoc]
  rw [hend] at hle ⊢
  have hpos : ∀ p, bsReaderPosition (it.dict.reader p) = (.ok p, it.dict.reader p) := fun _ => rfl
  rw [iterTakeChild, It.rd_bind_ok (seek_reader hd (by omega)), It.get_bind,
    if_pos hrem, It.rd_bind_ok (read_ctrl hd hcodes hat.left), hskip, if_neg (by decide),
    It.rd_bind_ok hdist, It.rd_bind_ok (hpos _), It.modify_bind, u64_of_lt (by omega)]
  rfl

/-- Exhausted frames are passed over. -/
theorem iterSibling_of_take {frames : List IterFrame} (hstack : it.stack = f :: frames) (hrem : f.remaining ≠ 0)
    {subtreeEnd p : Nat} {it' : Iter} {y : Nat} (hpos : it'.pos = p) (hp : p ≤ 8 * d.buf.length)
    (h : iterTakeChild f frames ({ it with keyLen := f.keyPrefixLen }, d.reader x) =
      (.ok subtreeEnd, it', d.reader y)) :
    iterSibling (it, d.reader x) = (.ok (.walk subtreeEnd), it', d.reader p) := by
  have hdrop : it.stack.dropWhile (fun f => f.remaining == 0) = f :: frames := by
    rw [hstack, List.dropWhile_cons, if_neg (by simpa using hrem)]
  have hsame : ({ it with stack := f :: frames } : Iter) = it := by
    rw [← hstack]
  rw [iterSibling, It.modify_bind, It.get_bind]
  simp only [hdrop]
  rw [It.modify_bind, hsame, Op.bind_ok h, It.get_bind, hpos, It.rd_bind_ok (seek_reader hd hp)]
  rfl

end Sibling

/-! ## What is still to be visited -/

/-- A path and the subtrees below it that are left, the first key of which has value index
`vi`. -/
structure PendingFrame where
  path : List UInt8
  kids : List Trie
  vi : Nat

/-- What a stack of frames is going to yield. -/
def pendingVisits : List PendingFrame → List (Option (List UInt8 × Value (List UInt8)))
  | [] => []
  | p :: ps =>
    (p.kids.flatMap (PrefixTree.visits (iterMaxDepth - (ps.length + 1)))).map
      (Option.map (PrefixTree.under p.path)) ++ pendingVisits ps

/-- The subtree that an iteration runs over. -/
structure IterRoot where
  path : List UInt8
  tree : Trie
  vi : Nat

/-- The iterator is over the subtree. -/
structure Rooted (d : Dict) (es : List Entry) (t₀ : Trie) (root : IterRoot) (it : Iter) : Prop where
  dict_eq : it.dict = d
  stands : TrieAt d (usedBytes (es.map Entry.key)) it.rootPos root.tree root.vi
  rootEnd_eq : it.rootEnd = it.rootPos + d.trieLen root.tree root.vi
  rootKeyLen_eq : it.rootKeyLen = root.path.length
  entries : root.tree.entries.map (PrefixTree.under root.path) <+: t₀.entries.drop root.vi

/-- The key buffer holds each of the paths, longer ones first. -/
structure Kept (keyBuf : List UInt8) (paths : List (List UInt8)) : Prop where
  take_eq : ∀ l ∈ paths, keyBuf.take l.length = l
  sorted : paths.Pairwise fun l m => m.length ≤ l.length

/-- The frame is that of the subtrees. -/
structure FrameAt (d : Dict) (es : List Entry) (t₀ : Trie) (f : IterFrame) (p : PendingFrame) :
    Prop where
  stands : p.kids ≠ [] → KidsAt d (usedBytes (es.map Entry.key)) f.nextChildPos p.kids p.vi
  remaining_eq : f.remaining = p.kids.length
  subtreeEnd_eq : p.kids ≠ [] → f.subtreeEnd = f.nextChildPos + d.kidsLen p.kids p.vi
  keyPrefixLen_eq : f.keyPrefixLen = p.path.length
  entries : (p.kids.flatMap PrefixTree.entries).map (PrefixTree.under p.path) <+:
    t₀.entries.drop p.vi

/-- The iterator has started and is going to visit what is pending; `above` are the paths it is
inside of above those of its frames. -/
structure Running (d : Dict) (es : List Entry) (t₀ : Trie) (root : IterRoot) (it : Iter)
    (ps : List PendingFrame) (above : List (List UInt8)) : Prop where
  rooted : Rooted d es t₀ root it
  frames : List.Forall₂ (FrameAt d es t₀) it.stack ps
  kept : Kept it.keyBuf (above ++ (ps.map PendingFrame.path ++ [root.path]))
  cursor : it.CursorOk es
  started : it.started = true
  live : it.done = false

section Running

variable {d : Dict} {es : List Entry} {t₀ : Trie} {root : IterRoot} {it : Iter}
  {ps : List PendingFrame} {q : List UInt8}

/-- A byte extends the innermost path. -/
theorem Kept.push {keyBuf : List UInt8} {paths : List (List UInt8)} (h : Kept keyBuf (q :: paths))
    (b : UInt8) : Kept (keyBuf.take q.length ++ b :: keyBuf.drop (q.length + 1))
      ((q ++ [b]) :: paths) := by
  obtain ⟨htop, hsorted⟩ := List.pairwise_cons.mp h.sorted
  have hq := h.take_eq q (by simp)
  refine ⟨fun l hl => ?_, List.pairwise_cons.mpr ⟨fun l hl => ?_, hsorted⟩⟩
  · rw [hq]
    rcases List.mem_cons.mp hl with rfl | hl
    · rw [List.append_cons q b (keyBuf.drop (q.length + 1)), List.take_left]
    · calc
        (q ++ b :: keyBuf.drop (q.length + 1)).take l.length = q.take l.length :=
          List.take_append_of_le_length (htop l hl)
        _ = keyBuf.take l.length := by
          rw [← hq, List.take_take, Nat.min_eq_left (htop l hl)]
        _ = l := h.take_eq l (by simp [hl])
  · have := htop l hl
    simp
    omega

theorem Running.pushKey (h : Running d es t₀ root it ps [q]) (hlen : it.keyLen = q.length)
    (b : UInt8) : Running d es t₀ root (it.pushKey b) ps [q ++ [b]] ∧
      (it.pushKey b).keyLen = (q ++ [b]).length := by
  refine ⟨⟨⟨h.rooted.dict_eq, h.rooted.stands, h.rooted.rootEnd_eq, h.rooted.rootKeyLen_eq,
    h.rooted.entries⟩, h.frames, ?_, h.cursor, h.started, h.live⟩, by simp [Iter.pushKey, hlen]⟩
  rw [Iter.pushKey]
  simp only [hlen]
  exact h.kept.push b

/-- Leave the innermost path. -/
theorem Running.leave {it : Iter} (h : Running d es t₀ root it ps [q]) :
    Running d es t₀ root it ps [] where
  rooted := h.rooted
  frames := h.frames
  kept := ⟨fun l hl => h.kept.take_eq l (List.mem_cons_of_mem q hl), h.kept.sorted.of_cons⟩
  cursor := h.cursor
  started := h.started
  live := h.live

/-- A frame for the subtrees below the innermost path. -/
theorem Running.pushFrame (h : Running d es t₀ root it ps [q]) {f : IterFrame} {kids : List Trie}
    {vi : Nat} (hf : FrameAt d es t₀ f ⟨q, kids, vi⟩) :
    Running d es t₀ root { it with stack := f :: it.stack } (⟨q, kids, vi⟩ :: ps) [] where
  rooted := ⟨h.rooted.dict_eq, h.rooted.stands, h.rooted.rootEnd_eq, h.rooted.rootKeyLen_eq,
    h.rooted.entries⟩
  frames := .cons hf h.frames
  kept := h.kept
  cursor := h.cursor
  started := h.started
  live := h.live

/-- Another value. -/
theorem Running.moveCursor {above : List (List UInt8)} (h : Running d es t₀ root it ps above)
    {p i : Nat} (hcursor : Iter.CursorOk { it with valuePos := p, valueIndex := i } es) :
    Running d es t₀ root { it with valuePos := p, valueIndex := i } ps above where
  rooted := ⟨h.rooted.dict_eq, h.rooted.stands, h.rooted.rootEnd_eq, h.rooted.rootKeyLen_eq,
    h.rooted.entries⟩
  frames := h.frames
  kept := h.kept
  cursor := hcursor
  started := h.started
  live := h.live

/-- An exhausted frame is dropped. -/
theorem Running.dropFrame {p : PendingFrame} {f : IterFrame} {frames : List IterFrame}
    (h : Running d es t₀ root it (p :: ps) []) (hstack : it.stack = f :: frames) :
    Running d es t₀ root { it with stack := frames } ps [] where
  rooted := ⟨h.rooted.dict_eq, h.rooted.stands, h.rooted.rootEnd_eq, h.rooted.rootKeyLen_eq,
    h.rooted.entries⟩
  frames := by
    have hframes := h.frames
    rw [hstack] at hframes
    exact (List.forall₂_cons.mp hframes).2
  kept := ⟨fun l hl => h.kept.take_eq l (List.mem_cons_of_mem p.path hl), h.kept.sorted.of_cons⟩
  cursor := h.cursor
  started := h.started
  live := h.live

/-- The first child of the innermost frame is taken off it. -/
theorem Running.takeChild {k : Trie} {ks : List Trie} {vi : Nat} {f f' : IterFrame}
    {frames : List IterFrame} (h : Running d es t₀ root it (⟨q, k :: ks, vi⟩ :: ps) [])
    (hstack : it.stack = f :: frames) (hf' : FrameAt d es t₀ f' ⟨q, ks, vi + k.size⟩) (p : Nat) :
    Running d es t₀ root { it with keyLen := f.keyPrefixLen, pos := p, stack := f' :: frames }
      (⟨q, ks, vi + k.size⟩ :: ps) [q] where
  rooted := ⟨h.rooted.dict_eq, h.rooted.stands, h.rooted.rootEnd_eq, h.rooted.rootKeyLen_eq,
    h.rooted.entries⟩
  frames := by
    have hframes := h.frames
    rw [hstack] at hframes
    exact .cons hf' (List.forall₂_cons.mp hframes).2
  kept := by
    have hkept := h.kept
    refine ⟨fun l hl => hkept.take_eq l (by simpa using hl), List.pairwise_cons.mpr ⟨?_, hkept.sorted⟩⟩
    intro l hl
    rcases List.mem_cons.mp hl with rfl | hl
    · exact Nat.le_refl _
    · exact (List.pairwise_cons.mp hkept.sorted).1 l hl
  cursor := h.cursor
  started := h.started
  live := h.live

end Running

/-! ## What a call returns -/

/-- The iterator is over the subtree, and the key buffer still starts with its path. -/
structure Settled (d : Dict) (es : List Entry) (t₀ : Trie) (root : IterRoot) (it : Iter) : Prop where
  rooted : Rooted d es t₀ root it
  kept : it.keyBuf.take root.path.length = root.path

theorem Running.settled {d : Dict} {es : List Entry} {t₀ : Trie} {root : IterRoot} {it : Iter}
    {ps : List PendingFrame} {above : List (List UInt8)} (h : Running d es t₀ root it ps above) :
    Settled d es t₀ root it :=
  ⟨h.rooted, h.kept.take_eq root.path (by simp)⟩

/-- How the loop of `tp_iter_next` ends when `vs` is still to be visited. -/
def Outcome (d : Dict) (es : List Entry) (t₀ : Trie) (root : IterRoot)
    (s : IterMode × Iter × Reader) : List (Option (List UInt8 × Value (List UInt8))) → Prop
  | [] => ∃ it r, Returns (Op.loopStep iterBody) s (.error (.rc .eof), it, r) ∧
      Settled d es t₀ root it
  | none :: _ => ∃ it r, Returns (Op.loopStep iterBody) s (.error (.rc .overflow), it, r) ∧
      Settled d es t₀ root it
  | some e :: vs => ∃ item it r ps, Returns (Op.loopStep iterBody) s (.ok item, it, r) ∧
      Yielded d es e item ∧ Running d es t₀ root it ps [] ∧ pendingVisits ps = vs

section Walk

variable {d : Dict} {es : List Entry} {t₀ : Trie} (hd : Represents d es t₀) {root : IterRoot}
  {it : Iter} {ps : List PendingFrame} {q : List UInt8}

theorem Outcome.of_reaches {s s' : IterMode × Iter × Reader}
    {vs : List (Option (List UInt8 × Value (List UInt8)))}
    (h : Reaches (Op.loopStep iterBody) s s') (h' : Outcome d es t₀ root s' vs) :
    Outcome d es t₀ root s vs := by
  match vs, h' with
  | [], ⟨it, r, hret, hset⟩ => exact ⟨it, r, h.returns hret, hset⟩
  | none :: _, ⟨it, r, hret, hset⟩ => exact ⟨it, r, h.returns hret, hset⟩
  | some e :: vs, ⟨item, it, r, ps, hret, hrest⟩ => exact ⟨item, it, r, ps, h.returns hret, hrest⟩

theorem Outcome.congr {s s' : IterMode × Iter × Reader}
    {vs : List (Option (List UInt8 × Value (List UInt8)))}
    (h : Op.loopStep iterBody s = Op.loopStep iterBody s') (h' : Outcome d es t₀ root s' vs) :
    Outcome d es t₀ root s vs := by
  match vs, h' with
  | [], ⟨it, r, hret, hset⟩ => exact ⟨it, r, hret.congr h, hset⟩
  | none :: _, ⟨it, r, hret, hset⟩ => exact ⟨it, r, hret.congr h, hset⟩
  | some e :: vs, ⟨item, it, r, ps, hret, hrest⟩ => exact ⟨item, it, r, ps, hret.congr h, hrest⟩

theorem prefix_drop_of_append {α : Type} {xs ys l : List α} {n : Nat} (h : xs ++ ys <+: l.drop n) :
    ys <+: l.drop (n + xs.length) := by
  obtain ⟨tl, htl⟩ := h
  rw [← List.drop_drop, ← htl, List.append_assoc, List.drop_left]
  exact List.prefix_append ys tl

include hd

theorem iterSibling_spec {k : Trie} {ks : List Trie} {vi : Nat}
    (h : Running d es t₀ root it (⟨q, k :: ks, vi⟩ :: ps) []) (x : Nat) :
    ∃ p it', iterSibling (it, d.reader x) = (.ok (.walk (p + d.trieLen k vi)), it', d.reader p) ∧
      TrieAt d (usedBytes (es.map Entry.key)) p k vi ∧
      k.entries.map (PrefixTree.under q) <+: t₀.entries.drop vi ∧
      Running d es t₀ root it' (⟨q, ks, vi + k.size⟩ :: ps) [q] ∧ it'.keyLen = q.length := by
  obtain ⟨f, frames, hf, _, hstack⟩ := List.forall₂_cons_right_iff.mp h.frames
  have hkids : KidsAt d _ f.nextChildPos (k :: ks) vi := hf.stands (by simp)
  have hend : f.subtreeEnd = f.nextChildPos + d.kidsLen (k :: ks) vi := hf.subtreeEnd_eq (by simp)
  have hrem : f.remaining = ks.length + 1 := hf.remaining_eq
  have hentries := hf.entries
  rw [List.flatMap_cons, List.map_append] at hentries
  have hrest := prefix_drop_of_append hentries
  rw [List.length_map] at hrest
  have hk := (List.prefix_append _ _).trans hentries
  cases ks with
  | nil =>
    have htrie := hkids.last
    have hle := htrie.end_le hd.sound
    have hlen : d.kidsLen [k] vi = d.trieLen k vi := by
      rw [kidsLen_cons]
      simp [Dict.kidsLen, kidsBits]
    have htake := iterTakeChild_last hd.sound frames { it with keyLen := f.keyPrefixLen } x
      (by simpa using hrem) (show f.nextChildPos ≤ _ by omega)
    have hsibling :=
      iterSibling_of_take hd.sound hstack (by omega) rfl (show f.nextChildPos ≤ _ by omega) htake
    have hf' : FrameAt d es t₀ { f with remaining := f.remaining - 1 } ⟨q, [], vi + k.size⟩ :=
      ⟨by simp, by simp [hrem], by simp, hf.keyPrefixLen_eq, hrest⟩
    have hsub : f.nextChildPos + d.trieLen k vi = f.subtreeEnd := by rw [hend, hlen]
    refine ⟨f.nextChildPos, _, ?_, htrie, hk, h.takeChild hstack hf' f.nextChildPos,
      hf.keyPrefixLen_eq⟩
    rw [hsub]
    exact hsibling
  | cons u us =>
    obtain ⟨hskip, htrie, hnext⟩ := hkids.cons
    have hle := htrie.end_le hd.sound
    have htake := iterTakeChild_skip hd.sound hd.codes frames { it with keyLen := f.keyPrefixLen } x
      h.rooted.dict_eq (by rw [hrem, List.length_cons]; omega) hskip hle
    have hf' : FrameAt d es t₀
        { f with
          nextChildPos := f.nextChildPos + (skipBits d.sym (d.trieLen k vi)).length + d.trieLen k vi
          remaining := f.remaining - 1 } ⟨q, u :: us, vi + k.size⟩ := by
      refine ⟨fun _ => hnext, by simp [hrem], fun _ => ?_, hf.keyPrefixLen_eq, hrest⟩
      simp only
      rw [hend, kidsLen_cons, if_neg (by simp)]
      omega
    exact ⟨_, _,
      iterSibling_of_take hd.sound hstack (by omega) rfl
        (show f.nextChildPos + (skipBits d.sym (d.trieLen k vi)).length ≤ _ by omega) htake,
      htrie, hk, h.takeChild hstack hf' _, hf.keyPrefixLen_eq⟩

theorem length_kids_lt {kids : List Trie} {vi : Nat} (hcompact : ∀ t ∈ kids, t.Compact)
    (h : (kids.flatMap PrefixTree.entries).map (PrefixTree.under q) <+: t₀.entries.drop vi) :
    kids.length < 2 ^ 32 := by
  have hle := h.length_le
  have hcount := hd.count_lt
  have hentries := congrArg List.length hd.entries_eq
  have hkids : kids.length ≤ (kids.flatMap PrefixTree.entries).length := by
    rw [List.length_flatMap]
    exact PrefixTree.length_le_sum_size hcompact
  rw [List.length_map, List.length_drop] at hle
  rw [List.length_map] at hentries
  omega

/-- The frame that a BRANCH pushes. -/
theorem frameAt_node {term : Option (Value (List UInt8))} {kids : List Trie} {pos vi : Nat}
    (h : TrieAt d (usedBytes (es.map Entry.key)) pos (.node [] term kids) vi) (hne : kids ≠ [])
    (hentries : (PrefixTree.node [] term kids).entries.map (PrefixTree.under q) <+:
      t₀.entries.drop vi) :
    FrameAt d es t₀ ⟨pos + d.trieLen (.node [] term kids) vi,
        pos + (termBits d.sym d.info.hasValues vi term).length +
          (branchBits d.sym kids.length).length, u32 kids.length, q.length⟩
      ⟨q, kids, vi + term.toList.length⟩ := by
  obtain ⟨_, hkids⟩ := h.branch hne
  rw [PrefixTree.entries_node, PrefixTree.map_under_nil, List.map_append] at hentries
  have hrest := prefix_drop_of_append hentries
  rw [List.length_map, PrefixTree.length_termEntry] at hrest
  refine ⟨fun _ => hkids, u32_of_lt (length_kids_lt hd hkids.compact hrest), fun _ => ?_, rfl, hrest⟩
  simp only
  rw [trieLen_node_nil, if_neg (by simpa using hne)]
  omega

/-- A terminal yields its key, whatever frame was pushed for what is below it. -/
theorem yield_outcome {v : Value (List UInt8)} {pos vi subtreeEnd : Nat}
    (h : Running d es t₀ root it ps [q]) (hlen : it.keyLen = q.length)
    (hterm : At (bytesBits d.buf) pos (termBits d.sym d.info.hasValues vi (some v)))
    (hlt : pos < subtreeEnd) (hentry : t₀.entries[vi]? = some (q, v)) {stack : List IterFrame}
    {y : Nat} {ps' : List PendingFrame}
    (hbranch : iterTerminalBranch d subtreeEnd (it,
        d.reader (pos + (termBits d.sym d.info.hasValues vi (some v)).length)) =
      (.ok (), { it with stack := stack }, d.reader y))
    (h' : Running d es t₀ root { it with stack := stack } ps' []) :
    Outcome d es t₀ root (.walk subtreeEnd, it, d.reader pos)
      (some (q, v) :: pendingVisits ps') := by
  have hdict : it.dict = d := h.rooted.dict_eq
  obtain ⟨val, p, j, hval, hcursor, hyield⟩ :=
    terminalValue_spec hd { it with stack := stack } hdict h'.cursor hentry (d.reader y)
  have hkey : it.keyBuf.take it.keyLen = q := by rw [hlen]; exact h.kept.take_eq q (by simp)
  have hbody : iterBody (.walk subtreeEnd) (it, d.reader pos) =
      (.ok (.inr ⟨q, val⟩), { it with stack := stack, valuePos := p, valueIndex := j }, d.reader y) := by
    rw [iterBody, iterWalk_term hd.sound hd.codes hdict hlt hterm, Op.bind_ok hbranch,
      Op.bind_ok hval, It.get_bind, hkey]
    rfl
  exact ⟨_, _, _, ps', .of_inr (Op.loopStep_done hbody), hyield, h'.moveCursor hcursor, rfl⟩

/-- What the walk of a node comes to, given what the walks of its subtrees do. -/
theorem node_outcome {term : Option (Value (List UInt8))} {kids : List Trie} {pos vi : Nat}
    (hstands : TrieAt d (usedBytes (es.map Entry.key)) pos (.node [] term kids) vi)
    (hentries : (PrefixTree.node [] term kids).entries.map (PrefixTree.under q) <+:
      t₀.entries.drop vi)
    (h : Running d es t₀ root it ps [q]) (hlen : it.keyLen = q.length)
    (ih : ∀ k ∈ kids, ∀ {pos vi : Nat} {it : Iter} {ps : List PendingFrame},
      TrieAt d (usedBytes (es.map Entry.key)) pos k vi →
      k.entries.map (PrefixTree.under q) <+: t₀.entries.drop vi →
      Running d es t₀ root it ps [q] → it.keyLen = q.length →
      Outcome d es t₀ root (.walk (pos + d.trieLen k vi), it, d.reader pos)
        ((PrefixTree.visits (iterMaxDepth - ps.length) k).map (Option.map (PrefixTree.under q)) ++
          pendingVisits ps)) :
    Outcome d es t₀ root (.walk (pos + d.trieLen (.node [] term kids) vi), it, d.reader pos)
      ((PrefixTree.visits (iterMaxDepth - ps.length) (.node [] term kids)).map
        (Option.map (PrefixTree.under q)) ++ pendingVisits ps) := by
  have hdict : it.dict = d := h.rooted.dict_eq
  have hdepth : it.stack.length = ps.length := h.frames.length_eq
  have hlt : pos < pos + d.trieLen (.node [] term kids) vi := by
    have := trieLen_pos hd.sound vi hstands.compact
    omega
  have hfirst : ∀ v, term = some v → t₀.entries[vi]? = some (q, v) := by
    rintro v rfl
    obtain ⟨tl, htl⟩ := hentries
    rw [← Nat.add_zero vi, ← List.getElem?_drop, ← htl]
    simp [PrefixTree.entries_node, PrefixTree.termEntry, PrefixTree.under]
  rw [PrefixTree.visits_node_nil]
  by_cases hkids : kids = []
  · -- a leaf
    subst hkids
    obtain ⟨v, rfl⟩ : ∃ v, term = some v := by
      cases hstands.compact with
      | intro _ _ _ two =>
        exact Option.ne_none_iff_exists'.mp fun hnone => absurd (two hnone) (by simp)
    have hend : pos + d.trieLen (.node [] (some v) []) vi =
        pos + (termBits d.sym d.info.hasValues vi (some v)).length := by
      rw [trieLen_node_nil]
      rfl
    have hbranch := iterTerminalBranch_end d it hend.le
    have hyield := yield_outcome hd h hlen hstands.term hlt (hfirst v rfl) hbranch h.leave
    rw [if_neg (by simp)]
    simpa [PrefixTree.termEntry, PrefixTree.under] using hyield
  · obtain ⟨hbranch, _⟩ := hstands.branch hkids
    have hframe := frameAt_node hd hstands hkids hentries
    have hcount : kids.length < 2 ^ 64 := by
      have := (hstands.branch hkids).2.length_lt hd.sound
      omega
    have hinside : pos + (termBits d.sym d.info.hasValues vi term).length <
        pos + d.trieLen (.node [] term kids) vi := by
      have := length_branchBits_pos hd.sound kids.length
      rw [trieLen_node_nil, if_neg (by simpa using hkids)]
      omega
    by_cases hfull : it.stack.length ≥ iterMaxDepth
    · -- no room for its branch
      have hzero : iterMaxDepth - ps.length = 0 := by omega
      rw [hzero, if_pos ⟨rfl, hkids⟩]
      suffices hbody : ∃ r, iterBody (.walk (pos + d.trieLen (.node [] term kids) vi))
          (it, d.reader pos) = (.error (.rc .overflow), it, r) by
        obtain ⟨r, hbody⟩ := hbody
        exact ⟨it, r, .of_inr (Op.loopStep_error hbody), h.settled⟩
      cases term with
      | some v =>
        have hrun := iterTerminalBranch_at hd.sound hd.codes it hcount hinside hbranch
        rw [if_pos hfull, if_pos hfull] at hrun
        refine ⟨d.reader (pos + (termBits d.sym d.info.hasValues vi (some v)).length +
          (branchBits d.sym kids.length).length), ?_⟩
        rw [iterBody, iterWalk_term hd.sound hd.codes hdict hlt hstands.term, Op.bind_error hrun]
      | none =>
        have hrun := iterWalk_branch hd.sound hd.codes hdict hcount hlt hbranch
        rw [if_pos hfull, if_pos hfull] at hrun
        exact ⟨_, hrun⟩
    · have hroom : iterMaxDepth - ps.length - 1 = iterMaxDepth - (ps.length + 1) := by omega
      rw [if_neg (by omega), hroom]
      have hpush := h.pushFrame hframe
      rw [← hlen] at hpush
      cases term with
      | some v =>
        have hrun := iterTerminalBranch_at hd.sound hd.codes it hcount hinside hbranch
        rw [if_neg hfull, if_neg hfull] at hrun
        have hyield := yield_outcome hd h hlen hstands.term hlt (hfirst v rfl) hrun hpush
        simpa [PrefixTree.termEntry, PrefixTree.under, pendingVisits] using hyield
      | none =>
        obtain ⟨k, ks, rfl⟩ := List.exists_cons_of_ne_nil hkids
        have hrun := iterWalk_branch hd.sound hd.codes hdict hcount hlt hbranch
        rw [if_neg hfull, if_neg hfull] at hrun
        obtain ⟨p, it', hsibling, hk, hkentries, hrunning, hklen⟩ :=
          iterSibling_spec hd hpush
            (pos + (branchBits d.sym (k :: ks).length).length)
        have henter : iterBody .sibling _ = _ := Op.bind_ok hsibling
        have hwalk := ih k (by simp) hk hkentries hrunning hklen
        refine Outcome.of_reaches ((Reaches.single (Op.loopStep_next hrun)).trans
          (.single (Op.loopStep_next henter))) ?_
        simpa [PrefixTree.termEntry, pendingVisits] using hwalk

/-- The walk of a subtree visits it before what was pending. -/
theorem walk_outcome (t : Trie) {pos vi : Nat} {it : Iter} {ps : List PendingFrame}
    {q : List UInt8} (hstands : TrieAt d (usedBytes (es.map Entry.key)) pos t vi)
    (hentries : t.entries.map (PrefixTree.under q) <+: t₀.entries.drop vi)
    (h : Running d es t₀ root it ps [q]) (hlen : it.keyLen = q.length) :
    Outcome d es t₀ root (.walk (pos + d.trieLen t vi), it, d.reader pos)
      ((PrefixTree.visits (iterMaxDepth - ps.length) t).map (Option.map (PrefixTree.under q)) ++
        pendingVisits ps) := by
  induction t using PrefixTree.induction_on generalizing pos vi it ps q with
  | h l term kids ih =>
    induction l generalizing pos it q with
    | nil => exact node_outcome hd hstands hentries h hlen fun k hk _ _ _ _ => ih k hk
    | cons b l ihl =>
      obtain ⟨hb, hbyte, hrest⟩ := hstands.cons
      have hlt : pos < pos + d.trieLen (.node (b :: l) term kids) vi := by
        have := trieLen_pos hd.sound vi hstands.compact
        omega
      have hstep := iterWalk_byte hd.sound hd.codes h.rooted.dict_eq hb hlt hbyte
      obtain ⟨hpush, hpushLen⟩ := h.pushKey hlen b
      rw [PrefixTree.entries_cons, ← PrefixTree.map_under_append] at hentries
      have hwalk := ihl hrest hentries hpush hpushLen
      rw [PrefixTree.visits_cons, PrefixTree.map_map_under]
      refine Outcome.of_reaches (.single (Op.loopStep_next hstep)) ?_
      rwa [trieLen_cons, ← Nat.add_assoc]

/-- Going on with what is pending. -/
theorem sibling_outcome (h : Running d es t₀ root it ps []) (x : Nat) :
    Outcome d es t₀ root (.sibling, it, d.reader x) (pendingVisits ps) := by
  induction ps generalizing it with
  | nil =>
    have hstack : it.stack = [] := List.forall₂_nil_right_iff.mp h.frames
    have hend : iterBody .sibling (it, d.reader x) = (.error (.rc .eof), it, d.reader x) := by
      obtain ⟨dict, pos, done, keyBuf, keyLen, stack, started, _⟩ := it
      obtain rfl : stack = [] := hstack
      rfl
    exact ⟨it, d.reader x, .of_inr (Op.loopStep_error hend), h.settled⟩
  | cons p ps ih =>
    obtain ⟨q, kids, vi⟩ := p
    cases kids with
    | nil =>
      obtain ⟨f, frames, hf, _, hstack⟩ := List.forall₂_cons_right_iff.mp h.frames
      have hrem : f.remaining = 0 := hf.remaining_eq
      have hsame : iterSibling (it, d.reader x) =
          iterSibling ({ it with stack := frames }, d.reader x) := by
        rw [iterSibling, It.modify_bind, It.modify_bind]
        simp [hstack, hrem]
      have hbody : iterBody .sibling (it, d.reader x) =
          iterBody .sibling ({ it with stack := frames }, d.reader x) := by
        simp only [iterBody, bind, hsame]
      exact Outcome.congr (by simp only [Op.loopStep, hbody]) (ih (h.dropFrame hstack))
    | cons k ks =>
      obtain ⟨p, it', hsibling, hk, hkentries, hrunning, hklen⟩ := iterSibling_spec hd h x
      have henter : iterBody .sibling (it, d.reader x) = _ := Op.bind_ok hsibling
      have hwalk := walk_outcome hd k hk hkentries hrunning hklen
      refine Outcome.of_reaches (.single (Op.loopStep_next henter)) ?_
      simpa [pendingVisits] using hwalk

end Walk

end Triepack
