/-
  QuantumMemory.Proofs.Lattice.Document — coordinates and boundaries are read back from their documents.

  A coordinate that was read lies on the grid (`readable_onGrid`), where its components are written with few digits,
  so it is read back whatever it is. A boundary is taken apart before its kind is known, which changes nothing in it.

  - `Coordinate.ofDocument?_toDocument`
  - `Boundary.ofDocument?_toDocument`
-/

import QuantumMemory.Lattice.Document
import QuantumMemory.Proofs.Document.Fields
import QuantumMemory.Proofs.Lattice.Coordinate
import QuantumMemory.Proofs.Number.Short

namespace QuantumMemory

open Document (Readable)

namespace Coordinate

/-- Both components are within the limit. -/
def OnGrid (c : Coordinate) : Prop := c.x2.natAbs ≤ 2 * limit ∧ c.y2.natAbs ≤ 2 * limit

theorem readable_onGrid {c : Coordinate} (h : Readable ofDocument? c) : c.OnGrid := by
  obtain ⟨d, -, h⟩ := h
  obtain ⟨numbers, -, h⟩ := Option.bind_eq_some_iff.mp h
  split at h
  · rename_i x y
    rw [exact] at h
    split at h
    · cases h
    · rename_i x2 hx
      split at h
      · cases h
      · rename_i y2 hy
        cases h
        exact ⟨exactHalf?_le hx, exactHalf?_le hy⟩
  · cases h

theorem exact_eq {x y : Binary64} {x2 y2 : Int} (hx : exactHalf? x = some x2) (hy : exactHalf? y = some y2) :
    exact x y = .ok ⟨x2, y2⟩ := by
  simp only [exact, hx, hy]

theorem ofDocument?_pair {d : Document} {x y : Binary64} {c : Coordinate} (hd : d.all? Document.number? = some [x, y])
    (hexact : exact x y = .ok c) : ofDocument? d = some c := by
  simp only [ofDocument?, hd, Option.bind_eq_bind, Option.bind_some, hexact]
  rfl

/-- A coordinate on the grid is read back from its document. -/
theorem ofDocument?_toDocument {c : Coordinate} (h : c.OnGrid) : ofDocument? c.toDocument = some c := by
  obtain ⟨hxfinite, hx⟩ := exactHalf?_half h.1
  obtain ⟨hyfinite, hy⟩ := exactHalf?_half h.2
  have hxread : Document.number? (.ofBinary64 c.x) = some c.x :=
    Document.number?_ofBinary64 hxfinite (Binary64.readsBack_half h.1)
  have hyread : Document.number? (.ofBinary64 c.y) = some c.y :=
    Document.number?_ofBinary64 hyfinite (Binary64.readsBack_half h.2)
  have hall : Document.all? Document.number? (.ofList .ofBinary64 [c.x, c.y]) = some [c.x, c.y] :=
    Document.all?_ofList (List.forall_mem_cons.mpr ⟨hxread, List.forall_mem_singleton.mpr hyread⟩)
  exact ofDocument?_pair hall (exact_eq hx hy)

theorem all?_toDocument {cs : List Coordinate} (h : Readable (Document.all? ofDocument?) cs) :
    Document.all? ofDocument? (.ofList toDocument cs) = some cs :=
  Document.all?_ofList fun c hc => ofDocument?_toDocument (readable_onGrid (h.all c hc))

@[simp] theorem written_toDocument (c : Coordinate) : c.toDocument.Written := by simp [toDocument]

end Coordinate

namespace CheckBasis

theorem ofDocument?_toDocument (b : CheckBasis) : ofDocument? b.toDocument = some b := by cases b <;> rfl

@[simp] theorem written_toDocument (b : CheckBasis) : b.toDocument.Written := by simp [toDocument]

end CheckBasis

namespace Boundary

theorem ofKind?_toroidal {kind : String} {rest : Document} {width height : Nat}
    (h : ofKind? kind rest = some (.toroidal width height)) : width ≤ Document.word32 ∧ height ≤ Document.word32 := by
  unfold ofKind? at h
  split at h
  · cases h
  · cases h
  · simp only [Option.bind_eq_bind, Option.bind_eq_some_iff, Option.pure_def, Option.some.injEq, toroidal.injEq] at h
    obtain ⟨fields, -, w, hwidth, v, hheight, rfl, rfl⟩ := h
    obtain ⟨_, -, hwidth⟩ := Option.bind_eq_some_iff.mp hwidth
    obtain ⟨_, -, hheight⟩ := Option.bind_eq_some_iff.mp hheight
    exact ⟨Document.natural?_le hwidth, Document.natural?_le hheight⟩
  · cases h

theorem readable_toroidal {width height : Nat} (h : Readable ofDocument? (.toroidal width height)) :
    width ≤ Document.word32 ∧ height ≤ Document.word32 := by
  obtain ⟨d, -, h⟩ := h
  unfold ofDocument? at h
  split at h
  · simp only [Option.bind_eq_bind, Option.bind_eq_some_iff] at h
    obtain ⟨_, _, _, -, _, -, h⟩ := h
    exact ofKind?_toroidal h
  · simp only [Option.bind_eq_bind, Option.bind_eq_some_iff] at h
    obtain ⟨_, -, _, -, h⟩ := h
    exact ofKind?_toroidal h
  · cases h

/-- The kind is set apart, and what stands beside it settled. -/
theorem ofDocument?_object {members rest : List (Option String × Document)} {kind : String}
    (hkind : (Document.known? ["kind"] members).bind (·.required "kind" Document.string?) = some kind)
    (hrest : Document.settledFields? depth (members.filter fun (name, _) => name ≠ some "kind") = some rest) :
    ofDocument? (.object members) = ofKind? kind (.object rest) := by
  obtain ⟨fields, hfields, hkind⟩ := Option.bind_eq_some_iff.mp hkind
  simp only [ofDocument?, hfields, hkind, hrest, Option.bind_eq_bind, Option.bind_some]

/-- The fields of a torus beside its kind. -/
def sides (width height : Nat) : Document.Fields := [("width", .ofNat width), ("height", .ofNat height)]

theorem settled_sides {width height : Nat} (hwidth : width ≤ Document.word32) (hheight : height ≤ Document.word32) :
    Document.settledFields? depth (Document.members (sides width height)) =
      some (Document.members (sides width height)) := by
  have hbound : Document.word32 ≤ Numeral.naturalBound := by decide
  have hsettled : ∀ n ≤ Document.word32, Document.settled? depth (.ofNat n) = some (.ofNat n) := fun n hn =>
    Document.settled?_ofNat (hn.trans hbound) depth
  exact Document.settledFields?_members (by simp [sides, hsettled, hwidth, hheight])

theorem ofKind?_sides {width height : Nat} (hwidth : width ≤ Document.word32) (hheight : height ≤ Document.word32) :
    ofKind? "toroidal" (.record (sides width height)) = some (.toroidal width height) := by
  have hwidth' := Document.natural?_ofNat hwidth (by decide)
  have hheight' := Document.natural?_ofNat hheight (by decide)
  simp [sides, ofKind?, hwidth', hheight']

/-- A boundary that was read is read back from its document. -/
theorem ofDocument?_toDocument {b : Boundary} (h : Readable ofDocument? b) : ofDocument? b.toDocument = some b := by
  cases b with
  | «open» => rfl
  | toroidal width height =>
    obtain ⟨hwidth, hheight⟩ := readable_toroidal h
    have hkind : (Document.known? ["kind"] (Document.members (("kind", .ofString "toroidal") :: sides width height))).bind
        (·.required "kind" Document.string?) = some "toroidal" := by
      simp [sides, Document.known?_members]
    exact (ofDocument?_object hkind (settled_sides hwidth hheight)).trans (ofKind?_sides hwidth hheight)

@[simp] theorem written_toDocument (b : Boundary) : b.toDocument.Written := by
  cases b <;> simp [toDocument]

end Boundary

end QuantumMemory
