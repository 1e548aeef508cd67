import Triepack.Terseml.Memory

/-!
# Strings in memory

The loops of the readers pass over what their runs consist of, and fill the buffers that they have
measured. So a string is read in memory as it is on lists of bytes.
-/

namespace Terseml.Memory

open Escape Triepack

/-! ## Loops -/

section Loops

variable {buf raw t rest s : List UInt8} {ctx : EscCtx} {i fuel : Nat}

theorem load_eq {c : UInt8} (h : buf.drop i = c :: rest) : load buf i = pure c := by
  have hget : buf[i]? = some c := by rw [← List.head?_drop, h]; rfl
  rw [load, hget]

theorem lt_length {c : UInt8} (h : buf.drop i = c :: rest) : i < buf.length := by
  by_contra hle
  rw [List.drop_eq_nil_of_le (by omega)] at h
  cases h

theorem drop_succ {c : UInt8} (h : buf.drop i = c :: rest) : buf.drop (i + 1) = rest := by
  rw [← List.drop_drop, h]
  rfl

theorem drop_add (h : buf.drop i = s ++ rest) : buf.drop (i + s.length) = rest := by
  rw [← List.drop_drop, h, List.drop_left]

theorem length_of_drop (hi : i ≤ buf.length) (h : buf.drop i = s) : i + s.length = buf.length := by
  rw [← h, List.length_drop]
  omega

theorem test_eq (buf : List UInt8) (i : Nat) (p : UInt8 → Bool) :
    test buf i p = pure ((buf.drop i).head?.any p) := by
  rw [test]
  split_ifs with hi
  · obtain ⟨c, z, hz⟩ := List.exists_cons_of_ne_nil (l := buf.drop i) (by simp; omega)
    rw [load_eq hz, hz]
    simp
  · rw [List.drop_eq_nil_of_le (by omega)]
    rfl

/-- The bytes with the property are passed, and no others. -/
theorem scan_eq {p : UInt8 → Bool} {stop : Nat} (hs : buf.drop i = s ++ rest) (hstop : stop = i + s.length)
    (hfuel : s.length < fuel) : scan buf p stop fuel i = pure (i + (s.takeWhile p).length) := by
  induction s generalizing i fuel with
  | nil =>
    obtain ⟨fuel, rfl⟩ : ∃ n, fuel = n + 1 := ⟨fuel - 1, by omega⟩
    rw [scan, if_neg (by simp at hstop; omega)]
    rfl
  | cons c s ih =>
    obtain ⟨fuel, rfl⟩ : ∃ n, fuel = n + 1 := ⟨fuel - 1, by omega⟩
    rw [List.length_cons] at hstop hfuel
    rw [scan, if_pos (by omega), load_eq hs, pure_bind, List.takeWhile_cons]
    cases p c with
    | false => simp
    | true =>
      simp only [if_true, List.length_cons]
      rw [ih (drop_succ hs) (by omega) (by omega)]
      congr 1
      omega

/-- A run is measured up to what ends it, unless that is a backslash. -/
theorem measureEscaped_run (h : Scheme.Run ctx.scheme raw t) (hrest : Scheme.Blocked ctx.scheme rest)
    (hi : i ≤ buf.length) (hs : buf.drop i = raw ++ rest) (hfuel : raw.length < fuel) (nesc : Nat) :
    measureEscaped buf ctx fuel i nesc =
      if rest.head? = some bs then malformed else pure (i + raw.length, nesc + (raw.length - t.length)) := by
  induction h generalizing i fuel nesc with
  | nil =>
    obtain ⟨fuel, rfl⟩ : ∃ n, fuel = n + 1 := ⟨fuel - 1, by omega⟩
    rw [List.nil_append] at hs
    cases hrest with
    | nil =>
      have hlen := length_of_drop hi hs
      rw [measureEscaped, if_neg (by simp at hlen; omega)]
      simp
    | @stop c rest hesc hstop =>
      have hc : c ≠ bs := hesc
      have hres : isReserved ctx c = true := hstop
      rw [measureEscaped, if_pos (lt_length hs), load_eq hs, pure_bind, if_neg hc, if_pos hres]
      simp [hc]
    | cut =>
      have hs : buf.drop i = [bs] := hs
      have hlen := length_of_drop hi hs
      rw [measureEscaped, if_pos (lt_length hs), load_eq hs, pure_bind, if_pos rfl,
        if_pos (by simp at hlen; omega)]
      simp [EscCtx.scheme]
    | @unknown e rest hmeaning =>
      have he : validEscape e = false := by simpa [EscCtx.scheme] using hmeaning
      have hs : buf.drop i = bs :: e :: rest := hs
      have hnext := drop_succ hs
      have hlt := lt_length hnext
      rw [measureEscaped, if_pos (lt_length hs), load_eq hs, pure_bind, if_pos rfl, if_neg (by omega),
        load_eq hnext, pure_bind, he]
      simp [EscCtx.scheme]
  | @plain c raw t hesc hstop hrun ih =>
    obtain ⟨fuel, rfl⟩ : ∃ n, fuel = n + 1 := ⟨fuel - 1, by omega⟩
    have hc : c ≠ bs := hesc
    have hres : isReserved ctx c = false := hstop
    have hlt := lt_length hs
    rw [List.length_cons] at hfuel
    have hrest := ih (show i + 1 ≤ buf.length by omega) (drop_succ hs) (show raw.length < fuel by omega) nesc
    rw [measureEscaped, if_pos hlt, load_eq hs, pure_bind, if_neg hc, if_neg (by simp [hres]), hrest]
    simp only [List.length_cons]
    congr 3 <;> omega
  | @escaped e c raw t hmeaning hrun ih =>
    obtain ⟨fuel, rfl⟩ : ∃ n, fuel = n + 1 := ⟨fuel - 1, by omega⟩
    have he : validEscape e = true := by
      by_contra hno
      simp [EscCtx.scheme, hno] at hmeaning
    have hs : buf.drop i = bs :: e :: (raw ++ rest) := hs
    have hnext := drop_succ hs
    have hlt := lt_length hnext
    have hle := hrun.length_le
    rw [List.length_cons, List.length_cons] at hfuel
    have hrest := ih (show i + 1 + 1 ≤ buf.length by omega) (drop_succ hnext) (show raw.length < fuel by omega)
      (nesc + 1)
    rw [measureEscaped, if_pos (lt_length hs), load_eq hs, pure_bind, if_pos rfl, if_neg (by omega),
      load_eq hnext, pure_bind, if_pos he, hrest]
    simp only [List.length_cons]
    congr 3 <;> omega

/-! ## Copies -/

/-- The arena with more bytes in the last buffer. -/
def Arena.put (a : Arena) (s : List UInt8) : Arena :=
  match a.buffers with
  | [] => a
  | b :: bs => { a with buffers := ⟨b.size, b.written ++ s⟩ :: bs }

/-- There is room for as many bytes in the last buffer. -/
def Arena.Room (a : Arena) (n : Nat) : Prop := ∃ b bs, a.buffers = b :: bs ∧ b.written.length + n ≤ b.size

variable {a a' : Arena}

theorem Arena.put_put (a : Arena) (s t : List UInt8) : (a.put s).put t = a.put (s ++ t) := by
  obtain ⟨requests, _ | ⟨b, bs⟩⟩ := a
  · rfl
  · simp [Arena.put]

theorem Arena.put_nil (a : Arena) : a.put [] = a := by
  obtain ⟨requests, _ | ⟨b, bs⟩⟩ := a
  · rfl
  · simp [Arena.put]

theorem Arena.Room.mono {n m : Nat} (h : a.Room m) (hm : n ≤ m) : a.Room n := by
  obtain ⟨b, bs, ha, hle⟩ := h
  exact ⟨b, bs, ha, by omega⟩

theorem Arena.Room.put {n m : Nat} (h : a.Room m) (hm : s.length + n ≤ m) : (a.put s).Room n := by
  obtain ⟨b, bs, ha, hle⟩ := h
  refine ⟨⟨b.size, b.written ++ s⟩, bs, by simp [Arena.put, ha], ?_⟩
  rw [List.length_append]
  dsimp only
  omega

theorem bind_ok {α β : Type} {x : Dec α} {f : α → Dec β} {v : α} (h : x a = .ok v a') : (x >>= f) a = f v a' := by
  simp [bind, EStateM.bind, h]

theorem bind_error {α β : Type} {x : Dec α} {f : α → Dec β} {e : Halt} (h : x a = .error e a') :
    (x >>= f) a = .error e a' := by
  simp [bind, EStateM.bind, h]

theorem store_eq {n : Nat} (h : a.Room (n + 1)) (c : UInt8) : store c a = .ok () (a.put [c]) := by
  obtain ⟨b, bs, ha, hle⟩ := h
  simp only [store, ha, Arena.put]
  rw [if_pos (by omega)]

theorem copy_eq (hs : buf.drop i = s ++ rest) (hroom : a.Room s.length) :
    copy buf i s.length a = .ok () (a.put s) := by
  induction s generalizing i a with
  | nil => rw [Arena.put_nil]; rfl
  | cons c s ih =>
    rw [List.length_cons] at hroom
    have hstore := store_eq hroom c
    have hrest := ih (drop_succ hs) (hroom.put (s := [c]) (n := s.length) (by simp; omega))
    rw [List.length_cons, copy, load_eq hs, pure_bind, bind_ok hstore, hrest, Arena.put_put]
    rfl

theorem copyEscaped_run (h : Scheme.Run ctx.scheme raw t) (hs : buf.drop i = raw ++ rest) {fin : Nat}
    (hfin : fin = i + raw.length) (hfuel : raw.length < fuel) (hroom : a.Room t.length) :
    copyEscaped buf fin fuel i a = .ok () (a.put t) := by
  induction fuel generalizing i raw t a with
  | zero => omega
  | succ fuel ih =>
    cases h with
    | nil =>
      rw [copyEscaped, if_neg (by simp at hfin; omega), Arena.put_nil]
      rfl
    | @escaped e c raw t hmeaning hrun =>
      obtain rfl : e = c := by
        simp only [EscCtx.scheme] at hmeaning
        split_ifs at hmeaning
        exact Option.some.inj hmeaning
      have hs : buf.drop i = bs :: e :: (raw ++ rest) := hs
      have hnext := drop_succ hs
      simp only [List.length_cons] at hfin hfuel hroom
      have hstore := store_eq hroom e
      have hrest := ih hrun (drop_succ hnext) (show fin = i + 1 + 1 + raw.length by omega) (by omega)
        (hroom.put (s := [e]) (n := t.length) (by simp; omega))
      rw [copyEscaped, if_pos (by omega), load_eq hs, pure_bind, if_pos rfl, load_eq hnext, pure_bind,
        bind_ok hstore, hrest, Arena.put_put]
      rfl
    | @plain c raw t hesc hstop hrun =>
      have hc : c ≠ bs := hesc
      obtain ⟨s, raw', t', hraw, ht, hplain, hrun', hend⟩ :=
        Scheme.Run.exists_plain (.plain hesc hstop hrun)
      have htake : (c :: raw).takeWhile (· != bs) = s := by
        have hpass : ∀ d ∈ s, (d != bs) = true := fun d hd => bne_iff_ne.mpr (hplain d hd).1
        rw [hraw, List.takeWhile_append_of_pos hpass]
        obtain rfl | ⟨z, rfl⟩ := hend
        · simp
        · simp [EscCtx.scheme]
      have hpos : 0 < s.length := by
        rw [← htake]
        simp [hc]
      have hscan := scan_eq (p := (· != bs)) hs hfin (show (c :: raw).length < buf.length + 1 by
        have hlen := congrArg List.length hs
        simp only [List.length_drop, List.length_append] at hlen
        omega)
      rw [htake] at hscan
      rw [hraw] at hs hfin hfuel
      rw [ht] at hroom ⊢
      rw [List.append_assoc] at hs
      rw [List.length_append] at hfin hfuel hroom
      have hcopy : copy buf i (i + s.length - i) a = .ok () (a.put s) := by
        rw [Nat.add_sub_cancel_left]
        exact copy_eq hs (hroom.mono (by omega))
      have hrest := ih hrun' (drop_add hs) (show fin = i + s.length + raw'.length by omega) (by omega)
        (hroom.put (s := s) (n := t'.length) (by omega))
      have hload : load buf i = pure c := by
        have hfirst : buf.drop i = c :: (raw ++ rest) := by
          rw [hs, ← List.append_assoc, ← hraw, List.cons_append]
        exact load_eq hfirst
      rw [copyEscaped, if_pos (by omega), hload, pure_bind, if_neg hc, hscan, pure_bind, bind_ok hcopy, hrest,
        Arena.put_put]

/-- A run behind `\b` is measured up to what ends it, unless that is a backslash. -/
theorem measureBinary_run (h : Scheme.Run binScheme raw t) (hrest : Scheme.Blocked binScheme rest)
    (hi : i ≤ buf.length) (hs : buf.drop i = raw ++ rest) (hfuel : raw.length < fuel) (nesc : Nat) :
    measureBinary buf fuel i nesc =
      if rest.head? = some bs then malformed else pure (i + raw.length, nesc + (raw.length - t.length)) := by
  have hbs : bs ≠ 0 := by decide
  induction h generalizing i fuel nesc with
  | nil =>
    obtain ⟨fuel, rfl⟩ : ∃ n, fuel = n + 1 := ⟨fuel - 1, by omega⟩
    rw [List.nil_append] at hs
    cases hrest with
    | nil =>
      have hlen := length_of_drop hi hs
      rw [measureBinary, if_neg (by simp at hlen; omega)]
      simp
    | @stop c rest hesc hstop =>
      obtain rfl : c = 0 := by simpa [binScheme] using hstop
      rw [measureBinary, if_pos (lt_length hs), load_eq hs, pure_bind, if_pos rfl]
      simp [hbs.symm]
    | cut =>
      have hs : buf.drop i = [bs] := hs
      have hlen := length_of_drop hi hs
      rw [measureBinary, if_pos (lt_length hs), load_eq hs, pure_bind, if_neg hbs, if_pos rfl,
        if_pos (by simp at hlen; omega)]
      simp [binScheme]
    | @unknown e rest hmeaning =>
      have he : e ≠ digit0 ∧ e ≠ bs := by
        simp only [binScheme, binescape] at hmeaning
        split_ifs at hmeaning with hzero hesc
        exact ⟨hzero, hesc⟩
      have hs : buf.drop i = bs :: e :: rest := hs
      have hnext := drop_succ hs
      have hlt := lt_length hnext
      rw [measureBinary, if_pos (lt_length hs), load_eq hs, pure_bind, if_neg hbs, if_pos rfl, if_neg (by omega),
        load_eq hnext, pure_bind, if_pos he]
      simp [binScheme]
  | @plain c raw t hesc hstop hrun ih =>
    obtain ⟨fuel, rfl⟩ : ∃ n, fuel = n + 1 := ⟨fuel - 1, by omega⟩
    have hc : c ≠ bs := hesc
    have hzero : c ≠ 0 := by simpa [binScheme] using hstop
    have hlt := lt_length hs
    rw [List.length_cons] at hfuel
    have hrest := ih (show i + 1 ≤ buf.length by omega) (drop_succ hs) (show raw.length < fuel by omega) nesc
    rw [measureBinary, if_pos hlt, load_eq hs, pure_bind, if_neg hzero, if_neg hc, hrest]
    simp only [List.length_cons]
    congr 3 <;> omega
  | @escaped e c raw t hmeaning hrun ih =>
    obtain ⟨fuel, rfl⟩ : ∃ n, fuel = n + 1 := ⟨fuel - 1, by omega⟩
    have he : ¬ (e ≠ digit0 ∧ e ≠ bs) := by
      simp only [binScheme, binescape] at hmeaning
      split_ifs at hmeaning with hzero hesc
      · exact fun h => h.1 hzero
      · exact fun h => h.2 hesc
    have hs : buf.drop i = bs :: e :: (raw ++ rest) := hs
    have hnext := drop_succ hs
    have hlt := lt_length hnext
    have hle := hrun.length_le
    rw [List.length_cons, List.length_cons] at hfuel
    have hrest := ih (show i + 1 + 1 ≤ buf.length by omega) (drop_succ hnext) (show raw.length < fuel by omega)
      (nesc + 1)
    rw [measureBinary, if_pos (lt_length hs), load_eq hs, pure_bind, if_neg hbs, if_pos rfl, if_neg (by omega),
      load_eq hnext, pure_bind, if_neg he, hrest]
    simp only [List.length_cons]
    congr 3 <;> omega

theorem copyTerminated_run (h : Scheme.Run binScheme raw t) (hs : buf.drop i = raw ++ 0 :: rest)
    (hfuel : raw.length < fuel) (hroom : a.Room t.length) :
    copyTerminated buf fuel i a = .ok (i + raw.length + 1) (a.put t) := by
  have hbs : bs ≠ 0 := by decide
  induction h generalizing i fuel a with
  | nil =>
    obtain ⟨fuel, rfl⟩ : ∃ n, fuel = n + 1 := ⟨fuel - 1, by omega⟩
    rw [List.nil_append] at hs
    rw [copyTerminated, if_pos (lt_length hs), load_eq hs, pure_bind, if_pos rfl, Arena.put_nil]
    rfl
  | @plain c raw t hesc hstop hrun ih =>
    obtain ⟨fuel, rfl⟩ : ∃ n, fuel = n + 1 := ⟨fuel - 1, by omega⟩
    have hc : c ≠ bs := hesc
    have hzero : c ≠ 0 := by simpa [binScheme] using hstop
    rw [List.length_cons] at hfuel hroom
    have hrest := ih (drop_succ hs) (show raw.length < fuel by omega)
      (hroom.put (s := [c]) (n := t.length) (by simp; omega))
    rw [copyTerminated, if_pos (lt_length hs), load_eq hs, pure_bind, if_neg hzero, if_neg hc,
      bind_ok (store_eq hroom c), hrest, Arena.put_put, List.length_cons,
      show i + 1 + raw.length = i + (raw.length + 1) by omega]
    rfl
  | @escaped e c raw t hmeaning hrun ih =>
    obtain ⟨fuel, rfl⟩ : ∃ n, fuel = n + 1 := ⟨fuel - 1, by omega⟩
    have hs : buf.drop i = bs :: e :: (raw ++ 0 :: rest) := hs
    have hnext := drop_succ hs
    have hlt := lt_length hnext
    rw [List.length_cons, List.length_cons] at hfuel
    rw [List.length_cons] at hroom
    have hrest := ih (drop_succ hnext) (show raw.length < fuel by omega)
      (hroom.put (s := [c]) (n := t.length) (by simp; omega))
    have hfin : i + 1 + 1 + raw.length + 1 = i + (raw.length + 1 + 1) + 1 := by omega
    rw [copyTerminated, if_pos (lt_length hs), load_eq hs, pure_bind, if_neg hbs, if_pos rfl, if_neg (by omega),
      load_eq hnext, pure_bind]
    simp only [binScheme, binescape] at hmeaning
    split_ifs at hmeaning with hzero hesc
    · obtain rfl := Option.some.inj hmeaning
      rw [if_pos hzero, bind_ok (store_eq hroom 0), hrest, Arena.put_put, hfin]
      rfl
    · obtain rfl := Option.some.inj hmeaning
      rw [if_neg hzero, if_pos hesc, bind_ok (store_eq hroom bs), hrest, Arena.put_put, hfin]
      rfl

end Loops

/-! ## Calls in memory -/

/-- Every byte of every buffer has been written. -/
def Arena.Full (a : Arena) : Prop := ∀ b ∈ a.buffers, b.written.length = b.size

/-- A call on a list of bytes that ends so. -/
def halt : TsmlStop → Halt
  | .rc code => .rc code
  | .fuel => .fuel

/-- The call in memory ends as the call on lists does, with related results if with any, unless a
request for memory is not granted. It leaves every buffer full. -/
def Sim {α β : Type} (R : α → β → Prop) (x : Dec α) (y : Except TsmlStop β) : Prop :=
  ∀ a, a.Full →
    match x a with
    | .ok v a' => a'.Full ∧ ∃ w, y = .ok w ∧ R v w
    | .error e a' => a'.Full ∧ (e = .rc .alloc ∨ ∃ stop, y = .error stop ∧ e = halt stop)

section Sim

variable {α β γ δ : Type} {R : α → β → Prop} {S : γ → δ → Prop} {x : Dec α} {y : Except TsmlStop β}
  {grant : Nat → Bool}

theorem Sim.pure {v : α} {w : β} (h : R v w) : Sim R (pure v) (.ok w) := fun _ ha => ⟨ha, w, rfl, h⟩

theorem Sim.malformed : Sim R Memory.malformed Terseml.malformed := fun _ ha => ⟨ha, .inr ⟨.rc .malformed, rfl, rfl⟩⟩

theorem Sim.throw (stop : TsmlStop) : Sim R (throw (halt stop)) (.error stop) :=
  fun _ ha => ⟨ha, .inr ⟨stop, rfl, rfl⟩⟩

theorem Sim.bind {f : α → Dec γ} {g : β → Except TsmlStop δ} (h : Sim R x y)
    (hfg : ∀ v w, R v w → Sim S (f v) (g w)) : Sim S (x >>= f) (y >>= g) := by
  intro a ha
  have hx := h a ha
  cases hxa : x a with
  | ok v a' =>
    rw [hxa] at hx
    obtain ⟨ha', w, rfl, hR⟩ := hx
    rw [bind_ok hxa]
    exact hfg v w hR a' ha'
  | error e a' =>
    rw [hxa] at hx
    rw [bind_error hxa]
    refine ⟨hx.1, hx.2.imp_right ?_⟩
    rintro ⟨stop, rfl, rfl⟩
    exact ⟨stop, rfl, rfl⟩

/-- A request for memory is not seen on lists. -/
theorem Sim.alloc_bind {f : Unit → Dec α} (h : Sim R (f ()) y) : Sim R (alloc grant >>= f) y := by
  intro a ha
  by_cases hgrant : grant a.requests = true
  · have halloc : alloc grant a = .ok () { a with requests := a.requests + 1 } := by simp [alloc, hgrant]
    rw [bind_ok halloc]
    exact h _ ha
  · have halloc : alloc grant a = .error (.rc .alloc) { a with requests := a.requests + 1 } := by
      simp [alloc, hgrant]
    rw [bind_error halloc]
    exact ⟨ha, .inl rfl⟩

theorem Sim.grow_bind {first n cap : Nat} {f : Nat → Dec α} (h : ∀ cap, Sim R (f cap) y) :
    Sim R (grow grant first n cap >>= f) y := by
  rw [grow]
  by_cases hfull : n = cap
  · rw [if_pos hfull, bind_assoc]
    exact Sim.alloc_bind (by simpa using h _)
  · rw [if_neg hfull, pure_bind]
    exact h cap

theorem Sim.keep_bind {ε : Type} {v : List ε} {f : Unit → Dec α} (h : Sim R (f ()) y) :
    Sim R (keep grant v >>= f) y := by
  rw [keep]
  split_ifs
  · rw [pure_bind]
    exact h
  · exact Sim.alloc_bind h

/-- What a loop hands on, a recursion on lists puts together when it comes back. -/
theorem Sim.bind_right {T : α → δ → Prop} {g : β → Except TsmlStop δ} (h : Sim R x y)
    (hg : ∀ v w, R v w → ∃ u, g w = .ok u ∧ T v u) : Sim T x (y >>= g) := by
  rw [← bind_pure x]
  refine h.bind fun v w hR => ?_
  obtain ⟨u, hu, hT⟩ := hg v w hR
  rw [hu]
  exact Sim.pure hT

end Sim

/-! ## Strings -/

/-- The string lies in the input, if it points there. -/
def Str.Inside (n : Nat) : Str → Prop
  | .slice start len => start + len ≤ n
  | _ => True

/-- The bytes of a string. -/
def Str.bytes (buf : List UInt8) : Str → List UInt8
  | .slice start len => (buf.drop start).take len
  | .copy bytes => bytes
  | .literal bytes => bytes

/-- The string is in its place, and is what has been read. -/
structure Str.Denotes (buf : List UInt8) (s : Str) (t : List UInt8) : Prop where
  inside : s.Inside buf.length
  bytes : s.bytes buf = t

/-- The cursor is in front of what is left. -/
structure Left (buf : List UInt8) (i : Nat) (rest : List UInt8) : Prop where
  le : i ≤ buf.length
  drop : buf.drop i = rest

/-- The string has been read, and the cursor is behind it. -/
def StrRead (buf : List UInt8) (v : Str × Nat) (w : List UInt8 × List UInt8) : Prop :=
  v.1.Denotes buf w.1 ∧ Left buf v.2 w.2

section Strings

variable {grant : Nat → Bool} {buf raw t rest s : List UInt8} {ctx : EscCtx} {i : Nat}

theorem Str.Denotes.len_eq {v : Str} (h : v.Denotes buf t) : v.len = t.length := by
  rw [← h.bytes]
  cases v with
  | slice start len =>
    have hinside : start + len ≤ buf.length := h.inside
    rw [Str.len, Str.bytes, List.length_take, List.length_drop]
    omega
  | copy | literal => rfl

theorem Left.lt_iff (h : Left buf i rest) : i < buf.length ↔ rest ≠ [] := by
  have hlen := length_of_drop h.le h.drop
  rw [← List.length_pos_iff]
  omega

theorem Left.succ {c : UInt8} (h : Left buf i (c :: rest)) : Left buf (i + 1) rest :=
  ⟨lt_length h.drop, drop_succ h.drop⟩

theorem Left.add (h : Left buf i (s ++ rest)) : Left buf (i + s.length) rest := by
  refine ⟨?_, drop_add h.drop⟩
  have hlen := length_of_drop h.le h.drop
  rw [List.length_append] at hlen
  omega

theorem slice_denotes (h : Left buf i (s ++ rest)) : (Str.slice i s.length).Denotes buf s := by
  refine ⟨h.add.le, ?_⟩
  rw [Str.bytes, h.drop, List.take_left]

/-- A buffer that has been measured is filled by the copy. -/
theorem Sim.allocBuffer_bind {α β : Type} {R : α → β → Prop} {size : Nat} {f : Unit → Dec α} {w : β}
    (hlen : t.length = size) (h : ∀ a : Arena, a.Room t.length → copied (a.put t) = .ok (.copy t) (a.put t) →
      ∃ v, R v w ∧ f () a = .ok v (a.put t)) : Sim R (allocBuffer grant size >>= f) (.ok w) := by
  rw [allocBuffer, bind_assoc]
  apply Sim.alloc_bind
  intro a ha
  have hmodify : (modify fun a : Arena => { a with buffers := ⟨size, []⟩ :: a.buffers } : Dec Unit) a =
      .ok () { a with buffers := ⟨size, []⟩ :: a.buffers } := rfl
  rw [bind_ok hmodify]
  obtain ⟨v, hR, hf⟩ := h { a with buffers := ⟨size, []⟩ :: a.buffers } ⟨⟨size, []⟩, a.buffers, rfl, by simp [hlen]⟩ rfl
  rw [hf]
  refine ⟨?_, w, rfl, hR⟩
  exact List.forall_mem_cons.mpr ⟨by simp [hlen], ha⟩

/-- The first loop of a reader passes what stands for itself. -/
theorem scan_plain {S : Scheme UInt8} {p : UInt8 → Bool} (hp : ∀ c, p c = true ↔ c ≠ S.esc ∧ S.stop c = false)
    (hs : ∀ c ∈ s, c ≠ S.esc ∧ S.stop c = false) (hraw : raw = [] ∧ Scheme.Blocked S rest ∨ ∃ z, raw = S.esc :: z)
    (h : Left buf i (s ++ (raw ++ rest))) :
    scan buf p buf.length (buf.length + 1) i = pure (i + s.length) := by
  have hlen := length_of_drop h.le h.drop
  have hfirst : (raw ++ rest).takeWhile p = [] := by
    obtain ⟨rfl, hblocked⟩ | ⟨z, rfl⟩ := hraw
    · cases hblocked with
      | nil => rfl
      | @stop c _ _ hstop =>
        have hc : p c = false := Bool.eq_false_iff.mpr fun hpc => by simpa [hstop] using ((hp c).mp hpc).2
        simp [hc]
      | cut | unknown =>
        have hesc : p S.esc = false := Bool.eq_false_iff.mpr fun hpc => ((hp S.esc).mp hpc).1 rfl
        simp [hesc]
    · have hesc : p S.esc = false := Bool.eq_false_iff.mpr fun hpc => ((hp S.esc).mp hpc).1 rfl
      simp [hesc]
  have hdrop : buf.drop i = s ++ (raw ++ rest) ++ [] := by rw [h.drop, List.append_nil]
  rw [scan_eq hdrop (by omega) (by omega), List.takeWhile_append_of_pos fun c hc => (hp c).mpr (hs c hc), hfirst,
    List.append_nil]

/-- A string of the input is read as on lists. -/
theorem readEscaped_sim (h : Left buf i s) :
    Sim (StrRead buf) (readEscaped grant buf ctx i) (Terseml.readEscaped ctx s) := by
  obtain ⟨raw, t, rest, hsplit, rfl, hrun, hblocked⟩ := Scheme.split_spec ctx.scheme s
  obtain ⟨s, raw', t', rfl, rfl, hplain, hrun', hend⟩ := hrun.exists_plain
  have hdrop := h.drop
  have hleft := h
  rw [readEscaped_run hrun hblocked]
  rw [List.append_assoc] at hleft
  have hscan := scan_plain (p := fun c => c != bs && !isReserved ctx c) (fun c => by simp [EscCtx.scheme]) hplain
    (hend.imp_left fun hnil => ⟨hnil, hblocked⟩) hleft
  have hnext := hleft.add
  have hmeasure := measureEscaped_run hrun' hblocked hnext.le hnext.drop
    (show raw'.length < buf.length + 1 by
      have hlen := length_of_drop hnext.le hnext.drop
      rw [List.length_append] at hlen
      omega) 0
  have hlen := hrun'.length_le
  simp only [Memory.readEscaped, hscan, pure_bind]
  by_cases hbs : (raw' ++ rest).head? = some bs
  · obtain ⟨z, hz⟩ := List.head?_eq_some_iff.mp hbs
    rw [hz] at hnext
    rw [if_neg (by have := lt_length hnext.drop; omega), load_eq hnext.drop, pure_bind, if_neg (by simp), hmeasure]
    by_cases hend : rest.head? = some bs
    · rw [if_pos hend, if_neg (by simp [Ended, hend])]
      exact Sim.malformed
    · rw [if_neg hend, pure_bind]
      have hright := h.add
      rw [List.length_append, ← Nat.add_assoc] at hright
      dsimp only
      cases rest with
      | nil =>
        have hfin := length_of_drop hright.le hright.drop
        rw [if_pos (by simp at hfin; omega), if_neg not_ended_nil]
        exact Sim.malformed
      | cons c z =>
        have hne : c ≠ bs := by simpa using hend
        have hlt := lt_length hright.drop
        rw [if_neg (by omega), if_pos (ended_cons.mpr hne)]
        refine Sim.allocBuffer_bind (t := s ++ t') (by rw [List.length_append]; omega) fun a hroom hcopied => ?_
        have hcopy := copyEscaped_run hrun hdrop (show i + s.length + raw'.length = i + (s ++ raw').length by
          rw [List.length_append]; omega) (show (s ++ raw').length < buf.length + 1 by
          rw [List.length_append]; omega) hroom
        refine ⟨(.copy (s ++ t'), i + s.length + raw'.length), ⟨⟨trivial, rfl⟩, hright⟩, ?_⟩
        rw [bind_ok hcopy, bind_ok hcopied]
        rfl
  · obtain rfl : raw' = [] := by
      obtain hnil | ⟨z, rfl⟩ := hend
      · exact hnil
      · exact absurd rfl hbs
    obtain rfl : t' = [] := hrun'.eq_nil_iff.mp rfl
    simp only [List.nil_append, List.append_nil] at hnext hbs ⊢
    cases rest with
    | nil =>
      have hfin := length_of_drop hnext.le hnext.drop
      rw [if_pos (by simp at hfin; omega), if_neg not_ended_nil]
      exact Sim.malformed
    | cons c z =>
      have hne : c ≠ bs := by simpa using hbs
      have hlt := lt_length hnext.drop
      rw [if_neg (by omega), load_eq hnext.drop, pure_bind, if_pos hne, if_pos (ended_cons.mpr hne),
        Nat.add_sub_cancel_left]
      exact Sim.pure ⟨slice_denotes hleft, hnext⟩

theorem readVarint_sim (h : Left buf i s) (groups shift claim : Nat) :
    Sim (fun v w => v.1 = w.1 ∧ Left buf v.2 w.2) (readVarint buf groups shift claim i)
      (Terseml.readVarint groups shift claim s) := by
  induction groups generalizing i s shift claim with
  | zero => exact Sim.malformed
  | succ groups ih =>
    cases s with
    | nil =>
      have hlen := length_of_drop h.le h.drop
      rw [readVarint, if_pos (by simp at hlen; omega)]
      exact Sim.malformed
    | cons c s =>
      have hlt := lt_length h.drop
      rw [readVarint, if_neg (by omega), load_eq h.drop, pure_bind, Terseml.readVarint]
      dsimp only
      split_ifs
      · exact Sim.pure ⟨rfl, h.succ⟩
      · exact ih h.succ _ _

/-- What is behind `\b` is read as on lists. -/
theorem readTerminated_sim (h : Left buf i (bs :: letterb :: s)) :
    Sim (StrRead buf) (readBinary grant buf i) (Terseml.readBinary (bs :: letterb :: s)) := by
  have hne : letterb ≠ letterB ∧ ¬ letterb ≠ letterb ∧ bs ≠ 0 := by decide
  have hnext := h.succ
  have hlt := lt_length hnext.drop
  have hstart : Left buf (i + 2) s := hnext.succ
  obtain ⟨raw, t, rest, hsplit, rfl, hrun, hblocked⟩ := Scheme.split_spec binScheme s
  obtain ⟨s, raw', t', rfl, rfl, hplain, hrun', hend⟩ := hrun.exists_plain
  have hleft := hstart
  rw [List.append_assoc] at hleft
  have hlen := length_of_drop hstart.le hstart.drop
  rw [List.length_append] at hlen
  have hscan := scan_plain (p := fun c => c != 0 && c != bs) (fun c => by simp [binScheme, and_comm]) hplain
    (hend.imp_left fun hnil => ⟨hnil, hblocked⟩) hleft
  have hmeasure := measureBinary_run hrun hblocked hstart.le hstart.drop
    (show (s ++ raw').length < buf.length + 1 by omega) 0
  rw [readBinary_terminated, hsplit, copyBinary_of_run hrun, readBinary, if_neg (by omega), load_eq hnext.drop,
    pure_bind]
  simp only [if_neg hne.1, if_neg hne.2.1, hscan, pure_bind, test_eq, hleft.add.drop]
  by_cases hzero : (raw' ++ rest).head? = some 0
  · -- There is no escape, so the string points into the input.
    obtain rfl : raw' = [] := by
      obtain hnil | ⟨z, rfl⟩ := hend
      · exact hnil
      · exact absurd (Option.some.inj hzero) hne.2.2
    obtain rfl : t' = [] := hrun'.eq_nil_iff.mp rfl
    obtain ⟨z, rfl⟩ := List.head?_eq_some_iff.mp hzero
    have hslice := slice_denotes hleft
    simp only [List.nil_append, List.append_nil, List.head?_cons, Option.any_some, beq_self_eq_true, if_true,
      Nat.add_sub_cancel_left, List.tail_cons]
    exact Sim.pure ⟨hslice, hleft.add.succ⟩
  · have htest : (raw' ++ rest).head?.any (· == 0) = false := by
      cases hhead : (raw' ++ rest).head? with
      | none => rfl
      | some c =>
        rw [hhead] at hzero
        simpa using hzero
    rw [htest, if_neg Bool.false_ne_true, hmeasure]
    cases rest with
    | nil =>
      have hnil : ¬ ([] : List UInt8).head? = some bs ∧ ¬ ([] : List UInt8).head? = some 0 := by simp
      rw [if_neg hnil.1, pure_bind, if_neg hnil.2]
      rw [List.length_nil] at hlen
      dsimp only
      rw [if_pos (by omega)]
      exact Sim.malformed
    | cons c z =>
      by_cases hc : c = 0
      · subst hc
        have hright := hstart.add
        have hlt' := lt_length hright.drop
        have hle := hrun.length_le
        have hhead : ¬ (0 :: z).head? = some bs ∧ (0 :: z).head? = some 0 := ⟨by simpa using hne.2.2.symm, rfl⟩
        rw [if_neg hhead.1, pure_bind, if_pos hhead.2]
        dsimp only
        rw [if_neg (by omega)]
        refine Sim.allocBuffer_bind (t := s ++ t') (by omega) fun a hroom hcopied => ?_
        have hcopy := copyTerminated_run hrun hstart.drop (show (s ++ raw').length < buf.length + 1 by omega) hroom
        refine ⟨(.copy (s ++ t'), i + 2 + (s ++ raw').length + 1), ⟨⟨trivial, rfl⟩, hright.succ⟩, ?_⟩
        rw [bind_ok hcopy, bind_ok hcopied]
        rfl
      · obtain rfl : c = bs := by
          cases hblocked with
          | stop _ hstop => exact absurd (by simpa [binScheme] using hstop) hc
          | cut | unknown => rfl
        have hhead : (bs :: z).head? = some bs ∧ ¬ (bs :: z).head? = some 0 := ⟨rfl, by simpa using hne.2.2⟩
        rw [if_pos hhead.1, if_neg hhead.2]
        exact Sim.malformed

/-- A run behind a backslash is read as on lists. -/
theorem readBinary_sim (h : Left buf i (bs :: s)) :
    Sim (StrRead buf) (readBinary grant buf i) (Terseml.readBinary (bs :: s)) := by
  have hnext := h.succ
  cases s with
  | nil =>
    have hlen := length_of_drop hnext.le hnext.drop
    rw [readBinary, if_pos (by simp at hlen; omega)]
    exact Sim.malformed
  | cons kind s =>
    have hlt := lt_length hnext.drop
    have hstart : Left buf (i + 2) s := hnext.succ
    by_cases hb : kind = letterb
    · subst hb
      exact readTerminated_sim h
    rw [readBinary, Terseml.readBinary, List.tail_cons, if_neg (by omega), load_eq hnext.drop, pure_bind]
    dsimp only
    by_cases hB : kind = letterB
    · rw [if_pos hB, if_pos hB]
      refine (readVarint_sim hstart 10 0 0).bind ?_
      rintro ⟨claim, j⟩ ⟨claim', rest⟩ ⟨rfl, hleft⟩
      have hlen := length_of_drop hleft.le hleft.drop
      dsimp only at hleft hlen ⊢
      by_cases hclaim : claim > rest.length
      · rw [if_pos hclaim, if_pos (by omega)]
        exact Sim.malformed
      · rw [if_neg hclaim, if_neg (by omega)]
        have htake : (rest.take claim).length = claim := by rw [List.length_take]; omega
        have hpayload : Left buf j (rest.take claim ++ rest.drop claim) := by
          rw [List.take_append_drop]
          exact hleft
        have hslice := slice_denotes hpayload
        have hadd := hpayload.add
        rw [htake] at hslice hadd
        exact Sim.pure ⟨hslice, hadd⟩
    · rw [if_neg hB, if_neg hB, if_pos hb, if_pos hb]
      exact Sim.malformed

end Strings

end Terseml.Memory
