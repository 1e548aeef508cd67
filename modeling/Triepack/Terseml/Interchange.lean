import Triepack.Terseml.JsDecode
import Triepack.Terseml.PythonRoundTrip

/-!
# Three implementations of one format

The C library, the Python module and the JavaScript module were written independently. What one of
them writes the others read.
-/

namespace Terseml

open Triepack

/-- `encode_document`. -/
def Python.encodeDocument (nodes : List Node) : Except Python.EncodeError (List UInt8) := do
  let parts ← nodes.mapM Python.encodeRoot
  .ok parts.flatten

/-! ## Python and JavaScript -/

/-- The JavaScript module writes every list of trees as the Python module does, canonical or not, and
refuses the same ones. -/
theorem Js.encodeDocument_eq_python (nodes : List Node) :
    Js.encodeDocument nodes = Python.encodeDocument nodes := by
  have hroot : Js.encodeRoot = Python.encodeRoot := funext fun n => Js.encode_eq (maxDepth + 1) n
  rw [Js.encodeDocument, Python.encodeDocument, hroot]

theorem agree_of_outcome {ε α : Type} {fail : ε → Fail} {x y : Except ε α} (h : outcome fail x = outcome fail y) :
    Agree x y := by
  intro a
  constructor
  · rintro rfl
    exact eq_ok_of_outcome h.symm
  · rintro rfl
    exact eq_ok_of_outcome h

theorem Js.decode_agree {s : List UInt8} (hlen : s.length < 2 ^ 53) : Agree (Js.decode s) (Python.decode s) :=
  agree_of_outcome (Js.decode_outcome hlen)

theorem Js.decodeDocument_agree {s : List UInt8} (hlen : s.length < 2 ^ 53) :
    Agree (Js.decodeDocument s) (Python.decodeDocument s) :=
  agree_of_outcome (Js.decodeDocument_outcome hlen)

/-- The JavaScript decoders accept the inputs that the Python decoders accept, whether they are well
formed or not, and return the same trees. -/
theorem Js.decoders_agree {s : List UInt8} (hlen : s.length < 2 ^ 53) :
    Agree (Js.decode s) (Python.decode s) ∧ Agree (Js.decodeDocument s) (Python.decodeDocument s) :=
  ⟨Js.decode_agree hlen, Js.decodeDocument_agree hlen⟩

/-- A run whose length has ten groups. -/
def longRunText : List UInt8 :=
  [0x7B, 0x61, 0x2C, 0x5C, 0x42, 0x81, 0x80, 0x80, 0x80, 0x80, 0x80, 0x80, 0x80, 0x80, 0x01, 0x7D]

theorem Js.decoders_agree_longRun :
    Agree (Js.decode longRunText) (Python.decode longRunText) ∧
      Agree (Js.decodeDocument longRunText) (Python.decodeDocument longRunText) :=
  Js.decoders_agree (by decide)

/-! ## From each to each -/

inductive Implementation where
  | c | python | javascript
  deriving DecidableEq, Repr

namespace Implementation

def encode : Implementation → Node → Option (List UInt8)
  | .c, n => (tsmlEncode n).toOption
  | .python, n => (Python.encodeRoot n).toOption
  | .javascript, n => (Js.encodeRoot n).toOption

def decode : Implementation → List UInt8 → Option Node
  | .c, s => (tsmlDecode s).toOption
  | .python, s => (Python.decode s).toOption
  | .javascript, s => (Js.decode s).toOption

def decodeDocument : Implementation → List UInt8 → Option (List Node)
  | .c, s => (tsmlDecodeDocument s).toOption
  | .python, s => (Python.decodeDocument s).toOption
  | .javascript, s => (Js.decodeDocument s).toOption

end Implementation

theorem toOption_eq_some {ε α : Type} {x : Except ε α} {a : α} : x.toOption = some a ↔ x = .ok a := by
  cases x <;> simp [Except.toOption]

section Interchange

variable {n : Node}

/-- A canonical element is written alike. -/
theorem Implementation.encode_eq (E : Implementation) (h : n.Encodable) (helement : n.IsElement) :
    E.encode n = some n.item.bytes := by
  have hself := normalise_eq_self h.canonical
  have hmem : n.normalise.InMemory := hself.symm ▸ h.inMemory
  have hpython : Python.encodeRoot n = .ok n.item.bytes := by
    have hencode := Python.encode_eq hmem helement (Nat.zero_add _) h.within
    rwa [hself] at hencode
  cases E with
  | c => exact toOption_eq_some.mpr (tsmlEncode_eq h.within)
  | python => exact toOption_eq_some.mpr hpython
  | javascript => exact toOption_eq_some.mpr ((Js.encode_eq _ n).trans hpython)

/-- The bytes of canonical elements are decoded to these elements. -/
theorem Implementation.decodeDocument_eq (D : Implementation) {ns : List Node} (hne : ns ≠ [])
    (h : ∀ n ∈ ns, n.IsElement ∧ n.Encodable)
    (hlen : D = .javascript → (contentBytes (ns.map Node.item)).length < 2 ^ 53) :
    D.decodeDocument (contentBytes (ns.map Node.item)) = some ns := by
  have hpython : Python.decodeDocument (contentBytes (ns.map Node.item)) = .ok ns := by
    have hok : ∀ n ∈ ns, n.item.Ok .python := fun n hn =>
      item_ok Python.counts_python (h n hn).2.canonical (h n hn).2.inMemory
    refine Python.decodeDocument_eq_ok.mpr ⟨ns.map Node.item, List.forall_mem_map.mpr fun n hn => ?_, rfl, ?_⟩
    · exact ⟨item_isElement n, hok n hn, item_within (h n hn).2.within (Nat.zero_le _)⟩
    · rw [keptContent_eq_flatMap, List.flatMap_map, List.flatMap_congr fun n hn => ?_, List.flatMap_singleton']
      have hn' := (h n hn).2
      rw [kept_eq_nodes (hok n hn) (Python.item_common hn'.canonical hn'.inMemory (h n hn).1),
        item_nodes hn'.canonical (h n hn).1]
  cases D with
  | c =>
    refine toOption_eq_some.mpr (tsmlDecodeDocument_eq_ok.mpr ⟨?_, ns.map Node.item, ?_, rfl, ?_⟩)
    · obtain ⟨n, ns, rfl⟩ := List.exists_cons_of_ne_nil hne
      rw [List.map_cons, contentBytes_cons]
      exact fun hnil => Item.bytes_ne_nil (h n (by simp)).2.isRoot.ok (List.append_eq_nil_iff.mp hnil).1
    · exact List.forall_mem_map.mpr fun n hn => (h n hn).2.isRoot
    · rw [contentNodes_eq_flatMap, List.flatMap_map,
        List.flatMap_congr fun n hn => item_nodes (h n hn).2.canonical (h n hn).1, List.flatMap_singleton']
  | python => exact toOption_eq_some.mpr hpython
  | javascript => exact toOption_eq_some.mpr ((Js.decodeDocument_agree (hlen rfl) ns).mpr hpython)

theorem Implementation.decode_eq (D : Implementation) (h : n.Encodable) (helement : n.IsElement)
    (hlen : D = .javascript → n.item.bytes.length < 2 ^ 53) : D.decode n.item.bytes = some n := by
  have hpython := Python.decode_item h.canonical h.within h.inMemory helement
  cases D with
  | c => exact toOption_eq_some.mpr (tsmlDecode_eq_ok.mpr ⟨_, h.isRoot, rfl, item_nodes h.canonical helement⟩)
  | python => exact toOption_eq_some.mpr hpython
  | javascript => exact toOption_eq_some.mpr ((Js.decode_agree (hlen rfl) n).mpr hpython)

end Interchange

/-- What any of the implementations writes for a canonical element, each of them reads as this
element; and a document of elements that were written by different implementations, each of them
reads as the list of the elements. -/
theorem interchange :
    (∀ (E D : Implementation) (n : Node), n.IsElement → n.Encodable →
      ∃ out, E.encode n = some out ∧ ((D = .javascript → out.length < 2 ^ 53) → D.decode out = some n)) ∧
    ∀ (D : Implementation) (parts : List (Implementation × Node)), parts ≠ [] →
      (∀ p ∈ parts, p.2.IsElement ∧ p.2.Encodable) →
      ∃ outs : List (List UInt8), parts.map (fun p => p.1.encode p.2) = outs.map some ∧
        ((D = .javascript → outs.flatten.length < 2 ^ 53) →
          D.decodeDocument outs.flatten = some (parts.map Prod.snd)) := by
  constructor
  · intro E D n helement h
    exact ⟨_, E.encode_eq h helement, D.decode_eq h helement⟩
  · intro D parts hne h
    refine ⟨parts.map fun p => p.2.item.bytes, ?_, fun hlen => ?_⟩
    · rw [List.map_map]
      exact List.map_congr_left fun p hp => p.1.encode_eq (h p hp).2 (h p hp).1
    · have hbytes : (parts.map fun p => p.2.item.bytes).flatten =
          contentBytes ((parts.map Prod.snd).map Node.item) := by
        rw [contentBytes_eq_flatMap, List.map_map, List.flatMap_map]
        rfl
      rw [hbytes] at hlen ⊢
      exact D.decodeDocument_eq (by simpa using hne) (List.forall_mem_map.mpr fun p hp => h p hp) hlen

/-- One element from C and one from JavaScript. -/
theorem interchange_noteTree :
    (∃ out, Implementation.python.encode noteTree = some out ∧
      ((Implementation.javascript = .javascript → out.length < 2 ^ 53) →
        Implementation.javascript.decode out = some noteTree)) ∧
    ∃ outs : List (List UInt8),
      [Implementation.c.encode noteTree, Implementation.javascript.encode noteTree] = outs.map some ∧
      ((Implementation.python = .javascript → outs.flatten.length < 2 ^ 53) →
        Implementation.python.decodeDocument outs.flatten = some [noteTree, noteTree]) := by
  refine ⟨interchange.1 .python .javascript noteTree rfl noteTree_encodable, ?_⟩
  exact interchange.2 .python [(.c, noteTree), (.javascript, noteTree)] (by simp)
    (by simpa using ⟨rfl, noteTree_encodable⟩)

end Terseml
