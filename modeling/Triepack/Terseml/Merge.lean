import Triepack.Terseml.RoundTrip

/-!
# Adjacent texts

The canonical form of a tree has adjacent texts concatenated and empty ones dropped. The C encoder
does neither: it writes text by text.
-/

namespace Terseml

open Escape Triepack

/-! ## The canonical form -/

mutual

/-- The tree with adjacent texts concatenated and empty ones dropped. -/
def Node.normalise : Node → Node
  | .text t => .text t
  | .element tag attrs children => .element tag attrs (normaliseChildren [] children)

/-- The children, with the texts that stand directly before them. -/
def normaliseChildren (texts : List (List UInt8)) : List Node → List Node
  | [] => textNode texts.flatten
  | c :: cs =>
    match c.text? with
    | some t => normaliseChildren (texts ++ [t]) cs
    | none => textNode texts.flatten ++ c.normalise :: normaliseChildren [] cs

end

theorem normalise_isElement {n : Node} (h : n.IsElement) : n.normalise.IsElement := by
  cases n with
  | text => simp [Node.IsElement, Node.text?] at h
  | element => rw [Node.normalise]; rfl

theorem normaliseChildren_canonical {cs : List Node} (ih : ∀ c ∈ cs, c.normalise.Canonical)
    (texts : List (List UInt8)) : childrenCanonical (normaliseChildren texts cs) := by
  induction cs generalizing texts with
  | nil =>
    rw [normaliseChildren, textNode]
    split_ifs with hempty
    · rw [childrenCanonical]
      trivial
    · simp [childrenCanonical, Node.text?, Node.Canonical, hempty]
  | cons c cs ihcs =>
    rw [normaliseChildren]
    have hcs := ihcs fun d hd => ih d (List.mem_cons_of_mem c hd)
    cases htext : c.text? with
    | some t => exact hcs _
    | none =>
      have helement : c.normalise.IsElement := normalise_isElement htext
      have helement' : c.normalise.text? = none := helement
      have hrest : childrenCanonical (c.normalise :: normaliseChildren [] cs) := by
        rw [childrenCanonical, helement']
        exact ⟨by simp, by simp, ih c List.mem_cons_self, hcs []⟩
      dsimp only
      rw [textNode]
      split_ifs with hempty
      · exact hrest
      · rw [List.singleton_append, childrenCanonical]
        exact ⟨by simpa [Node.text?] using hempty, by simpa using fun _ => helement, by simp [Node.Canonical], hrest⟩

theorem normalise_canonical (n : Node) : n.normalise.Canonical := by
  induction n using Node.induction_on with
  | text t => rw [Node.normalise, Node.Canonical]; trivial
  | element tag attrs children ih =>
    rw [Node.normalise, Node.Canonical]
    exact normaliseChildren_canonical ih []

/-- Only what the texts are together counts. -/
theorem normaliseChildren_congr {texts texts' : List (List UInt8)} (h : texts.flatten = texts'.flatten)
    (cs : List Node) : normaliseChildren texts cs = normaliseChildren texts' cs := by
  induction cs generalizing texts texts' with
  | nil => rw [normaliseChildren, normaliseChildren, h]
  | cons c cs ih =>
    rw [normaliseChildren, normaliseChildren]
    cases c.text? with
    | some t =>
      apply ih
      rw [List.flatten_append, List.flatten_append, h]
    | none =>
      dsimp only
      rw [h]

theorem normaliseChildren_eq_self {cs : List Node} (ih : ∀ c ∈ cs, c.Canonical → c.normalise = c)
    (h : childrenCanonical cs) : normaliseChildren [] cs = cs := by
  induction cs with
  | nil => rfl
  | cons c cs ihcs =>
    rw [childrenCanonical] at h
    obtain ⟨hne, hnext, hc, hcs⟩ := h
    have hrest := ihcs (fun d hd => ih d (List.mem_cons_of_mem c hd)) hcs
    rw [normaliseChildren]
    cases htext : c.text? with
    | none =>
      dsimp only
      rw [hrest, ih c List.mem_cons_self hc]
      rfl
    | some t =>
      have htextNode : textNode [t].flatten = [c] := by
        have ht : t ≠ [] := fun h => hne (by rw [htext, h])
        rw [text?_eq_some htext, List.flatten_singleton, textNode, if_neg ht]
      -- Behind the text there is an element, or nothing.
      cases cs with
      | nil => exact htextNode
      | cons d ds =>
        have hd : d.text? = none := hnext (by rw [htext]; rfl) d rfl
        rw [normaliseChildren, hd] at hrest
        dsimp only at hrest ⊢
        rw [List.nil_append, normaliseChildren, hd, htextNode]
        exact congrArg (c :: ·) hrest

/-- A canonical tree is its own canonical form. -/
theorem normalise_eq_self {n : Node} (h : n.Canonical) : n.normalise = n := by
  induction n using Node.induction_on with
  | text t => rw [Node.normalise]
  | element tag attrs children ih =>
    rw [Node.Canonical] at h
    rw [Node.normalise, normaliseChildren_eq_self ih h]

theorem textNode_childrenWithin (s : List UInt8) (depth : Nat) : childrenWithin (textNode s) depth := by
  rw [textNode]
  split_ifs <;> simp [childrenWithin, Node.Within]

theorem normalise_within {n : Node} {depth : Nat} (h : n.Within depth) : n.normalise.Within depth := by
  induction n using Node.induction_on generalizing depth with
  | text t => rwa [Node.normalise]
  | element tag attrs children ih =>
    rw [Node.Within] at h
    rw [Node.normalise, Node.Within]
    refine ⟨h.1, ?_⟩
    have hchildren := h.2
    clear h
    generalize ([] : List (List UInt8)) = texts
    induction children generalizing texts with
    | nil =>
      rw [normaliseChildren]
      exact textNode_childrenWithin _ _
    | cons c cs ihcs =>
      rw [childrenWithin] at hchildren
      have hcs := ihcs (fun d hd => ih d (List.mem_cons_of_mem c hd)) hchildren.2
      rw [normaliseChildren]
      cases htext : c.text? with
      | some t => exact hcs _
      | none =>
        rw [childrenWithin_iff]
        intro d hd
        obtain hd | hd := List.mem_append.mp hd
        · exact childrenWithin_iff.mp (textNode_childrenWithin _ _) d hd
        · obtain rfl | hd := List.mem_cons.mp hd
          · exact ih c List.mem_cons_self hchildren.1
          · exact childrenWithin_iff.mp (hcs []) d hd

/-! ## Runs of texts -/

/-- What the encoder writes for texts behind one another. -/
def writeTexts : (lead : Bool) → List (List UInt8) → List UInt8
  | _, [] => []
  | lead, t :: ts => writeText t lead ++ writeTexts false ts

/-- All of the texts are written inline. -/
def Inlined : (lead : Bool) → List (List UInt8) → Prop
  | _, [] => True
  | lead, t :: ts => chooseForm t lead = .inline ∧ Inlined false ts

/-- The texts that are not empty. -/
def fullTexts (texts : List (List UInt8)) : List (List UInt8) := texts.filter fun t => t ≠ []

/-- The first text that is not empty is at the start of the content. -/
def firstLeads (lead : Bool) (texts : List (List UInt8)) : Bool :=
  lead && decide (texts.head? ≠ some [])

/-- Texts that are written as their concatenation is. -/
structure RunMerges (lead : Bool) (texts : List (List UInt8)) : Prop where
  /-- Two texts that are not empty are written inline, and so is the whole. -/
  inline : 1 < (fullTexts texts).length →
    chooseForm texts.flatten lead = .inline ∧ Inlined (firstLeads lead texts) (fullTexts texts)
  /-- Behind an empty text at the start, no bracket is written inline at the front. -/
  bracket : lead → texts.head? = some [] → ∀ t ∈ (fullTexts texts).head?, t.head? = some lsq →
    chooseForm t false ≠ .inline

section Runs

variable {lead : Bool} {t : List UInt8} {ts : List (List UInt8)}

theorem chooseForm_nil (lead : Bool) : chooseForm [] lead = .inline := by cases lead <;> decide

theorem writeText_nil (lead : Bool) : writeText [] lead = [] := by
  rw [writeText, chooseForm_nil]
  rfl

theorem writeText_of_inline (h : chooseForm t lead = .inline) : writeText t lead = writeEscaped .text t lead := by
  simp [writeText, h]

/-- Empty texts write nothing, but the first one takes the start of the content. -/
theorem writeTexts_eq (lead : Bool) (texts : List (List UInt8)) :
    writeTexts lead texts = writeTexts (firstLeads lead texts) (fullTexts texts) := by
  have hfalse : ∀ texts : List (List UInt8), writeTexts false texts = writeTexts false (fullTexts texts) := by
    intro texts
    induction texts with
    | nil => rfl
    | cons t ts ih =>
      by_cases ht : t = []
      · simp [writeTexts, ht, fullTexts, writeText_nil, ih]
      · simp [writeTexts, ht, fullTexts, ih]
  cases texts with
  | nil => cases lead <;> rfl
  | cons t ts =>
    by_cases ht : t = []
    · simp [writeTexts, ht, fullTexts, writeText_nil, firstLeads, hfalse ts]
    · simp [writeTexts, ht, fullTexts, firstLeads, hfalse ts]

theorem flatten_fullTexts (texts : List (List UInt8)) : (fullTexts texts).flatten = texts.flatten := by
  induction texts with
  | nil => rfl
  | cons t ts ih => by_cases ht : t = [] <;> simp_all [fullTexts]

theorem writeEscaped_append (ctx : EscCtx) (s t : List UInt8) (lead : Bool) (hs : s ≠ []) :
    writeEscaped ctx (s ++ t) lead = writeEscaped ctx s lead ++ writeEscaped ctx t false := by
  have hfalse : ∀ s : List UInt8, writeEscaped ctx (s ++ t) false =
      writeEscaped ctx s false ++ writeEscaped ctx t false := by
    intro s
    induction s with
    | nil => rfl
    | cons c s ih => rw [List.cons_append, writeEscaped, writeEscaped, ih, List.append_assoc]
  cases s with
  | nil => exact absurd rfl hs
  | cons c s => rw [List.cons_append, writeEscaped, writeEscaped, hfalse, List.append_assoc]

theorem writeEscaped_of_head (h : t.head? ≠ some lsq) : writeEscaped .text t true = writeEscaped .text t false := by
  cases t with
  | nil => rfl
  | cons c t =>
    have hc : c ≠ lsq := fun hc => h (by rw [hc]; rfl)
    simp [writeEscaped, hc]

theorem chooseForm_of_head (h : t.head? ≠ some lsq) : chooseForm t true = chooseForm t false := by
  have hhead : (t.head? == some lsq) = false := by simpa using h
  simp [chooseForm, hhead]

/-- A form that is shorter than inline stays so with an escape more. -/
theorem chooseForm_of_not_inline (hlen : t.length < textMax) (h : chooseForm t false ≠ .inline) :
    chooseForm t true = chooseForm t false := by
  have hcode : (Leb128.code t.length).length ≤ 10 :=
    Leb128.length_code_le (by decide) (by simp only [textMax] at hlen; omega)
  have hinl := List.countP_le_length (p := fun x => x == lbr || x == rbr || x == bs) (l := t)
  have hterm := List.countP_le_length (p := fun x => x == 0 || x == bs) (l := t)
  simp only [textMax] at hlen
  revert h
  simp only [chooseForm, varintLen_eq]
  generalize hk : (if (true && t.head? == some lsq) = true then 1 else 0) = k
  have hk1 : k ≤ 1 := by rw [← hk]; split_ifs <;> omega
  simp only [Bool.false_and, Bool.false_eq_true, if_false]
  rw [u64_of_lt (by omega), u64_of_lt (by omega), u64_of_lt (by omega), u64_of_lt (by omega)]
  split_ifs <;> first | omega | simp

/-- What is not written inline is written as at the start. -/
theorem writeText_true (hlen : t.length < textMax)
    (h : t.head? = some lsq → chooseForm t false ≠ .inline) : writeText t true = writeText t false := by
  by_cases hhead : t.head? = some lsq
  · have hform := chooseForm_of_not_inline hlen (h hhead)
    simp [writeText, hform, h hhead]
  · have hform := chooseForm_of_head hhead
    simp [writeText, hform, writeEscaped_of_head hhead]

/-- A text that is not written inline begins with a backslash and a letter. -/
theorem blocked_writeText (h : chooseForm t lead ≠ .inline) (rest : List UInt8) :
    Scheme.Blocked EscCtx.text.scheme (writeText t lead ++ rest) := by
  simp only [writeText, if_neg h, writeBinary]
  split_ifs
  · exact blocked_of_letter (by decide)
  · exact blocked_of_letter (by decide)

theorem not_blocked_writeEscaped (ht : t ≠ []) (rest : List UInt8) :
    ¬ Scheme.Blocked EscCtx.text.scheme (writeEscaped .text t lead ++ rest) := by
  have hrun : Scheme.Run EscCtx.text.scheme (writeEscaped .text t lead) t := writeEscaped_run t lead
  exact hrun.not_blocked fun h => ht (hrun.eq_nil_iff.mp h)

/-- A text that is not written inline is read back from the front of a row. -/
theorem writeText_unique {u : List UInt8} {lead' : Bool} {rest rest' : List UInt8} (ht : t.length < textMax)
    (hu : u.length < textMax) (h : chooseForm t lead ≠ .inline) (h' : chooseForm u lead' ≠ .inline)
    (heq : writeText t lead ++ rest = writeText u lead' ++ rest') : t = u ∧ rest = rest' := by
  have hread : ∀ {s : List UInt8} {b : Bool} (r : List UInt8), s.length < textMax → chooseForm s b ≠ .inline →
      readRun .c (writeText s b ++ r) = .ok (textItem s b, r) := by
    intro s b r hs hform
    have htext : ¬ (textItem s b).IsText := by
      rw [textItem]
      cases hc : chooseForm s b <;> simp_all [Item.IsText]
    have hne : s ≠ [] := by
      rintro rfl
      exact hform (chooseForm_nil b)
    have hok : (textItem s b).Ok .c :=
      textItem_ok hne (by simp only [textMax] at hs; omega) (counts_c _ hs)
    rw [← textItem_bytes]
    exact readRun_bytes hok (not_isElement_textItem s b) fun hh => absurd hh htext
  have hread₁ := hread rest ht h
  rw [heq, hread rest' hu h', Except.ok.injEq, Prod.mk.injEq] at hread₁
  obtain ⟨hitem, rfl⟩ := hread₁
  have hnodes := congrArg Item.nodes hitem
  rw [textItem_nodes, textItem_nodes, textNode, textNode] at hnodes
  refine ⟨?_, rfl⟩
  split_ifs at hnodes with hu' ht' ht'
  · rw [hu', ht']
  · simpa using hnodes.symm

/-- The inline texts at the front of a row, up to one that is not written inline. -/
theorem exists_inline_prefix (ts : List (List UInt8)) {b : UInt8} (hb : b = lbr ∨ b = rbr) (z : List UInt8) :
    ∃ raw s rest, writeTexts false ts ++ b :: z = raw ++ rest ∧ Scheme.Run EscCtx.text.scheme raw s ∧
      Scheme.Blocked EscCtx.text.scheme rest ∧
      (Inlined false ts ∧ raw = writeTexts false ts ∧ rest = b :: z ∨ rest.head? = some bs) := by
  induction ts with
  | nil =>
    refine ⟨[], [], b :: z, rfl, .nil, ?_, .inl ⟨trivial, rfl, rfl⟩⟩
    obtain rfl | rfl := hb
    · exact blocked_of_reserved (by decide) (by decide)
    · exact blocked_of_reserved (by decide) (by decide)
  | cons t ts ih =>
    rw [writeTexts, List.append_assoc]
    by_cases hform : chooseForm t false = .inline
    · obtain ⟨raw, s, rest, heq, hrun, hblocked, hrest⟩ := ih
      refine ⟨writeEscaped .text t false ++ raw, t ++ s, rest, ?_, (writeEscaped_run t false).append hrun,
        hblocked, ?_⟩
      · rw [heq, writeText_of_inline hform, List.append_assoc]
      · refine hrest.imp_left fun ⟨hinlined, hraw, hend⟩ => ⟨⟨hform, hinlined⟩, ?_, hend⟩
        rw [← writeText_of_inline hform, hraw]
    · refine ⟨[], [], _, rfl, .nil, blocked_writeText hform _, .inr ?_⟩
      simp only [writeText, if_neg hform, writeBinary]
      split_ifs <;> rfl

theorem writeTexts_false_of_inlined (h : Inlined false ts) :
    writeTexts false ts = writeEscaped .text ts.flatten false := by
  induction ts with
  | nil => rfl
  | cons t ts ih =>
    rw [writeTexts, writeText_of_inline h.1, ih h.2, List.flatten_cons]
    by_cases ht : t = []
    · simp [ht, writeEscaped]
    · rw [writeEscaped_append _ _ _ _ ht]

/-- Texts of which none is empty are written as their concatenation under the conditions on them. -/
theorem writeTexts_eq_of_merges {texts : List (List UInt8)} (hmem : texts.flatten.length < textMax)
    (h : RunMerges lead texts) : writeTexts lead texts = writeText texts.flatten lead := by
  rw [writeTexts_eq, ← flatten_fullTexts]
  have hinline := h.inline
  have hbracket := h.bracket
  rw [← flatten_fullTexts] at hmem hinline
  have hfull : ∀ t ∈ fullTexts texts, t ≠ [] := by simp [fullTexts]
  generalize fullTexts texts = full at hmem hinline hbracket hfull
  cases full with
  | nil => exact (writeText_nil lead).symm
  | cons t ts =>
    -- The first text is written alike with either flag.
    have hlead : firstLeads lead texts = lead ∨
        firstLeads lead texts = false ∧ lead = true ∧ (t.head? = some lsq → chooseForm t false ≠ .inline) := by
      cases lead with
      | false => exact .inl rfl
      | true =>
        by_cases hhead : texts.head? = some []
        · exact .inr ⟨by simp [firstLeads, hhead], rfl, hbracket rfl hhead t rfl⟩
        · exact .inl (by simp [firstLeads, hhead])
    have htlen : t.length < textMax := by
      rw [List.flatten_cons, List.length_append] at hmem
      omega
    cases ts with
    | nil =>
      rw [writeTexts, writeTexts, List.append_nil, List.flatten_singleton]
      obtain hlead | ⟨hfirst, rfl, hform⟩ := hlead
      · rw [hlead]
      · rw [hfirst, writeText_true htlen hform]
    | cons u us =>
      obtain ⟨hwhole, hfirst, hrest⟩ := hinline (by simp)
      rw [writeTexts, writeText_of_inline hfirst, writeTexts_false_of_inlined hrest, writeText_of_inline hwhole]
      refine Eq.trans ?_ (writeEscaped_append .text t (u :: us).flatten lead (hfull t (by simp))).symm
      obtain hlead | ⟨hfirst', rfl, hform⟩ := hlead
      · rw [hlead]
      · rw [hfirst'] at hfirst ⊢
        rw [writeEscaped_of_head fun hhead => hform hhead hfirst]

/-- Before a brace, the texts are written as their concatenation under the conditions only. -/
theorem merges_of_writeTexts_eq {texts : List (List UInt8)} (hmem : texts.flatten.length < textMax)
    {b b' : UInt8} (hb : b = lbr ∨ b = rbr) (hb' : b' = lbr ∨ b' = rbr) {z z' : List UInt8}
    (heq : writeTexts lead texts ++ b :: z = writeText texts.flatten lead ++ b' :: z') :
    RunMerges lead texts ∧ b :: z = b' :: z' := by
  have hmerges : (1 < (fullTexts texts).length →
      chooseForm (fullTexts texts).flatten lead = .inline ∧ Inlined (firstLeads lead texts) (fullTexts texts)) →
      (lead → texts.head? = some [] → ∀ t ∈ (fullTexts texts).head?, t.head? = some lsq →
        chooseForm t false ≠ .inline) → RunMerges lead texts := by
    rw [flatten_fullTexts]
    exact fun h h' => ⟨h, h'⟩
  have hfirst : lead → texts.head? = some [] → firstLeads lead texts = false := by
    rintro rfl hhead
    simp [firstLeads, hhead]
  rw [writeTexts_eq, ← flatten_fullTexts] at heq
  rw [← flatten_fullTexts] at hmem
  have hfull : ∀ t ∈ fullTexts texts, t ≠ [] := by simp [fullTexts]
  generalize fullTexts texts = full at hmem hmerges hfull heq
  generalize firstLeads lead texts = first at hmerges hfirst heq
  cases full with
  | nil =>
    rw [List.flatten_nil, writeText_nil] at heq
    exact ⟨hmerges (by simp) (by simp), heq⟩
  | cons t ts =>
    have ht : t ≠ [] := hfull t (by simp)
    have hu : (t :: ts).flatten ≠ [] := by simp [ht]
    have htlen : t.length < textMax := by
      rw [List.flatten_cons, List.length_append] at hmem
      omega
    rw [writeTexts, List.append_assoc] at heq
    by_cases hform : chooseForm t first = .inline
    · by_cases hwhole : chooseForm (t :: ts).flatten lead = .inline
      · rw [writeText_of_inline hform, writeText_of_inline hwhole] at heq
        obtain ⟨raw, s, rest, hrow, hrun, hblocked, hcase⟩ := exists_inline_prefix ts hb z
        rw [hrow, ← List.append_assoc] at heq
        have hbrace : Scheme.Blocked EscCtx.text.scheme (b' :: z') := by
          obtain rfl | rfl := hb'
          · exact blocked_of_reserved (by decide) (by decide)
          · exact blocked_of_reserved (by decide) (by decide)
        obtain ⟨hraw, -, rfl⟩ := ((writeEscaped_run t first).append hrun).unique
          (writeEscaped_run (t :: ts).flatten lead) hblocked hbrace heq
        have hne : b' ≠ bs := by
          obtain rfl | rfl := hb'
          · decide
          · decide
        obtain ⟨hinlined, -, hrest⟩ | hhead := hcase
        swap
        · exact absurd (Option.some.inj hhead) hne
        refine ⟨hmerges (fun _ => ⟨hwhole, hform, hinlined⟩) fun hlead hhead u hu hbracket _ => ?_, hrest.symm⟩
        -- The bracket is escaped at the start of the content, but not behind an empty text.
        obtain rfl : t = u := Option.some.inj hu
        obtain ⟨v, rfl⟩ := List.head?_eq_some_iff.mp hbracket
        rw [hfirst hlead hhead, hlead] at hraw
        have hheads : some lsq = some bs := congrArg List.head? hraw
        exact absurd (Option.some.inj hheads) (by decide)
      · -- A text is not the beginning of a run in another form.
        rw [writeText_of_inline hform] at heq
        exact absurd (heq ▸ blocked_writeText hwhole _) (not_blocked_writeEscaped ht _)
    · by_cases hwhole : chooseForm (t :: ts).flatten lead = .inline
      · rw [writeText_of_inline hwhole] at heq
        exact absurd (heq ▸ blocked_writeText hform _) (not_blocked_writeEscaped hu _)
      · obtain ⟨htu, hrest⟩ := writeText_unique htlen hmem hform hwhole heq
        -- The first text is the whole.
        have hts : ts = [] := by
          have hlen := congrArg List.length htu
          rw [List.flatten_cons, List.length_append] at hlen
          have hflat : ts.flatten = [] := List.eq_nil_of_length_eq_zero (by omega)
          rw [List.flatten_eq_nil_iff] at hflat
          exact List.eq_nil_iff_forall_not_mem.mpr fun u hu =>
            hfull u (List.mem_cons_of_mem t hu) (hflat u hu)
        subst hts
        refine ⟨hmerges (by simp) fun hlead hhead u hu hbracket => ?_, hrest⟩
        obtain rfl : t = u := Option.some.inj hu
        rwa [hfirst hlead hhead] at hform

/-- Texts before a brace are written as their concatenation under the conditions exactly. -/
theorem writeTexts_append_eq_iff {texts : List (List UInt8)} (hmem : texts.flatten.length < textMax)
    {b b' : UInt8} (hb : b = lbr ∨ b = rbr) (hb' : b' = lbr ∨ b' = rbr) {z z' : List UInt8} :
    writeTexts lead texts ++ b :: z = writeText texts.flatten lead ++ b' :: z' ↔
      RunMerges lead texts ∧ b :: z = b' :: z' := by
  refine ⟨merges_of_writeTexts_eq hmem hb hb', fun ⟨hmerges, hrest⟩ => ?_⟩
  rw [writeTexts_eq_of_merges hmem hmerges, hrest]

theorem writeTexts_append_singleton (lead : Bool) (texts : List (List UInt8)) (t : List UInt8) :
    writeTexts lead (texts ++ [t]) = writeTexts lead texts ++ writeText t (lead && texts.isEmpty) := by
  have hfalse : ∀ texts : List (List UInt8),
      writeTexts false (texts ++ [t]) = writeTexts false texts ++ writeText t false := by
    intro texts
    induction texts with
    | nil => simp [writeTexts]
    | cons u us ih => rw [List.cons_append, writeTexts, writeTexts, ih, List.append_assoc]
  cases texts with
  | nil => simp [writeTexts]
  | cons u us => simp [writeTexts, hfalse]

end Runs

/-! ## Trees that are written in canonical form -/

mutual

/-- The texts of every element merge. -/
def Node.Merges : Node → Prop
  | .text _ => True
  | .element _ attrs children => childrenMerge (attrs = []) [] children

/-- The children merge, with the texts that stand directly before them. -/
def childrenMerge (lead : Bool) (texts : List (List UInt8)) : List Node → Prop
  | [] => RunMerges lead texts
  | c :: cs =>
    match c.text? with
    | some t => childrenMerge lead (texts ++ [t]) cs
    | none => RunMerges lead texts ∧ c.Merges ∧ childrenMerge false [] cs

end

section Trees

variable {cs : List Node}

theorem contentBytes_textNode (s : List UInt8) (lead : Bool) (hcs : ∀ c ∈ cs.head?, c.IsElement) :
    contentBytes (childItems (textNode s ++ cs) lead) = writeText s lead ++ contentBytes (childItems cs false) := by
  by_cases hs : s = []
  · have hstart : childItems cs lead = childItems cs false := by
      cases cs with
      | nil => rfl
      | cons c cs =>
        have hc : c.text? = none := hcs c rfl
        rw [childItems, childItems, hc]
    rw [textNode, if_pos hs, hs, writeText_nil, List.nil_append, List.nil_append, hstart]
  · rw [textNode, if_neg hs, List.singleton_append, childItems, contentBytes_cons]
    exact congrArg (· ++ _) (textItem_bytes s lead)

/-- An element and its canonical form are written alike, whatever follows, if its texts merge. -/
def MergesExactly (n : Node) : Prop :=
  n.IsElement → n.normalise.InMemory → ∀ y y',
    n.item.bytes ++ y = n.normalise.item.bytes ++ y' ↔ n.Merges ∧ y = y'

theorem flatten_length_lt {texts : List (List UInt8)} {ns : List Node}
    (h : ∀ t ∈ childTexts (textNode texts.flatten ++ ns), t.length < textMax) :
    texts.flatten.length < textMax := by
  by_cases hempty : texts.flatten = []
  · rw [hempty]
    decide
  · exact h _ (by simp [textNode, hempty, childTexts, Node.texts])

theorem contentBytes_normalise (ih : ∀ c ∈ cs, MergesExactly c) (lead : Bool) (texts : List (List UInt8))
    (hmem : ∀ t ∈ childTexts (normaliseChildren texts cs), t.length < textMax) (x x' : List UInt8) :
    writeTexts lead texts ++ (contentBytes (childItems cs (lead && texts.isEmpty)) ++ rbr :: x) =
        contentBytes (childItems (normaliseChildren texts cs) lead) ++ rbr :: x' ↔
      childrenMerge lead texts cs ∧ x = x' := by
  induction cs generalizing lead texts with
  | nil =>
    rw [normaliseChildren] at hmem ⊢
    have hcontent : contentBytes (childItems (textNode texts.flatten ++ []) lead) =
        writeText texts.flatten lead ++ contentBytes (childItems [] false) :=
      contentBytes_textNode texts.flatten lead (by simp)
    have hmem' : ∀ t ∈ childTexts (textNode texts.flatten ++ []), t.length < textMax := by simpa using hmem
    have hlen := flatten_length_lt hmem'
    rw [List.append_nil] at hcontent
    rw [hcontent, childItems, childItems, contentBytes, List.nil_append, List.append_nil, childrenMerge,
      writeTexts_append_eq_iff hlen (.inr rfl) (.inr rfl)]
    simp
  | cons c cs ihcs =>
    have hcs := ihcs fun d hd => ih d (List.mem_cons_of_mem c hd)
    rw [normaliseChildren] at hmem ⊢
    rw [childItems, contentBytes_cons, childrenMerge]
    cases htext : c.text? with
    | some t =>
      rw [htext] at hmem
      have h := hcs lead (texts ++ [t]) hmem
      rw [writeTexts_append_singleton, List.append_assoc] at h
      have hbehind : (lead && (texts ++ [t]).isEmpty) = false := by simp
      rw [hbehind] at h
      dsimp only
      rwa [textItem_bytes, List.append_assoc]
    | none =>
      rw [htext] at hmem
      dsimp only at hmem ⊢
      have hc : ∀ y y', c.item.bytes ++ y = c.normalise.item.bytes ++ y' ↔ c.Merges ∧ y = y' :=
        ih c List.mem_cons_self htext fun t ht =>
          hmem t (mem_childTexts.mpr ⟨c.normalise, by simp, ht⟩)
      have hrest := hcs false [] fun t ht => by
        obtain ⟨d, hd, hd'⟩ := mem_childTexts.mp ht
        exact hmem t (mem_childTexts.mpr ⟨d, by simp [hd], hd'⟩)
      have helement : c.normalise.text? = none := normalise_isElement htext
      obtain ⟨u, hu⟩ := Item.head?_bytes_of_isElement (item_of_isElement htext)
      obtain ⟨u', hu'⟩ := Item.head?_bytes_of_isElement (item_of_isElement helement)
      rw [contentBytes_textNode _ _ (by simpa [Node.IsElement] using helement), childItems, helement, contentBytes_cons]
      dsimp only
      -- The texts before the element, the element, and what stands behind it.
      have hruns : ∀ z z', writeTexts lead texts ++ lbr :: z = writeText texts.flatten lead ++ lbr :: z' ↔
          RunMerges lead texts ∧ lbr :: z = lbr :: z' := fun z z' =>
        writeTexts_append_eq_iff (flatten_length_lt hmem) (.inl rfl) (.inl rfl)
      specialize hruns (u ++ (contentBytes (childItems cs false) ++ rbr :: x))
        (u' ++ (contentBytes (childItems (normaliseChildren [] cs) false) ++ rbr :: x'))
      rw [← List.cons_append, ← List.cons_append, ← hu, ← hu', hc] at hruns
      simp only [List.append_assoc]
      rw [writeTexts, List.nil_append, Bool.false_and] at hrest
      rw [hruns, hrest]
      simp only [and_assoc]

theorem mergesExactly (n : Node) : MergesExactly n := by
  induction n using Node.induction_on with
  | text t => exact fun h => by simp [Node.IsElement, Node.text?] at h
  | element tag attrs children ih =>
    intro _ hmem y y'
    rw [Node.normalise] at hmem ⊢
    have h := contentBytes_normalise ih (decide (attrs = [])) [] hmem y y'
    rw [writeTexts, List.nil_append, List.isEmpty_nil, Bool.and_true] at h
    rw [Node.Merges, ← h, Node.item, Node.item]
    by_cases hattrs : attrs = []
    · simp [hattrs, Item.bytes]
    · simp [hattrs, Item.bytes]

/-- The tree is written as its canonical form, and the canonical form is read back. -/
def Canonicalises (n : Node) : Prop :=
  ∃ out, tsmlEncode n = .ok out ∧ tsmlEncode n.normalise = .ok out ∧ tsmlDecode out = .ok n.normalise

/-- `tsml_encode` writes the canonical form of a tree exactly where the texts merge. -/
theorem canonicalises_iff_merges (n : Node) (helement : n.IsElement) (hwithin : n.Within 0)
    (hmem : n.normalise.InMemory) : Canonicalises n ↔ n.Merges := by
  have hencode := tsmlEncode_eq hwithin
  obtain ⟨out, hout, hdecode⟩ := Node.Encodable.reencodes
    ⟨normalise_canonical n, normalise_within hwithin, hmem⟩ (normalise_isElement helement)
  have hbytes := mergesExactly n helement hmem [] []
  rw [List.append_nil, List.append_nil, and_iff_left rfl] at hbytes
  have hnormal := tsmlEncode_eq (normalise_within hwithin)
  rw [← hbytes]
  constructor
  · rintro ⟨out', hn, hnorm, -⟩
    rw [hencode, Except.ok.injEq] at hn
    rw [hnormal, Except.ok.injEq] at hnorm
    rw [hn, hnorm]
  · intro heq
    refine ⟨out, ?_, hout, hdecode⟩
    rw [hencode, heq, ← hnormal, hout]

end Trees

/-- Two texts with an empty one between them, before an element. -/
def letterTree : Node :=
  .element [0x70] [] [.text [0x61], .text [], .text [0x62], .element [] [] []]

theorem letterTree_merges : letterTree.Merges := by
  have hnil : ∀ lead, RunMerges lead [] := fun lead => ⟨by simp [fullTexts], by simp⟩
  have htexts : RunMerges true [[0x61], [], [0x62]] :=
    ⟨fun _ => ⟨by decide, by decide, by decide, trivial⟩, by simp⟩
  simp [letterTree, Node.Merges, childrenMerge, Node.text?, hnil, htexts]

theorem canonicalises_letterTree : Canonicalises letterTree := by
  refine (canonicalises_iff_merges letterTree rfl ?_ ?_).mpr letterTree_merges
  · simp [letterTree, Node.Within, childrenWithin, maxDepth]
  · simp [letterTree, Node.InMemory, Node.normalise, normaliseChildren, Node.text?, Node.texts, childTexts,
      textNode, textMax]

/-- An empty text before a bracket. -/
def bracketTree : Node := .element [0x61] [] [.text [], .text [0x5B]]

/-- The bracket behind an empty text is not escaped, and what is written is not read back. -/
theorem not_canonicalises_bracketTree : bracketTree.IsElement ∧ bracketTree.Within 0 ∧
    ¬ Canonicalises bracketTree ∧
    ∃ out, tsmlEncode bracketTree = .ok out ∧ tsmlDecode out = malformed := by
  have hencode : tsmlEncode bracketTree = .ok [0x7B, 0x61, 0x2C, 0x5B, 0x7D] := by rfl
  have hdecode : tsmlDecode [0x7B, 0x61, 0x2C, 0x5B, 0x7D] = malformed := by rfl
  refine ⟨rfl, by simp [bracketTree, Node.Within, childrenWithin, maxDepth], ?_, _, hencode, hdecode⟩
  rintro ⟨out, hout, -, hread⟩
  rw [hencode, Except.ok.injEq] at hout
  rw [← hout, hdecode] at hread
  cases hread

end Terseml
