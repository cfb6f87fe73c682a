import SchemaWire.Proofs.Lists
import SchemaWire.Proofs.Program.MinSize
/-!
# Programs that measure alike

What the least size of a layout comes to is a matter of the sizes of the layouts that are no records
and of the layouts of the fields that records have on the wire. So a program measures layouts as
another one does if they agree in this much, up to a change of the layouts and to other names for
the records in them (`Program.MeasuresAs`). The search is then the same step by step, whatever it
remembers and whatever is open, and finds the same sizes even where a layout has none
(`Program.MeasuresAs.minSize_eq`).
-/

namespace SchemaWire

namespace Program

variable {p q : Program} {key : TypeName → TypeName} {g : Layout → Layout}

/-- **A program measures changed layouts as another one measured them before**, where a record has
the name that `key` gives it. -/
structure MeasuresAs (q p : Program) (key : TypeName → TypeName) (g : Layout → Layout) : Prop where
  key_injective : Function.Injective key
  recordName? : ∀ a, (g a).recordName? = a.recordName?.map key
  plainSize : ∀ a, a.recordName? = none → q.plainSize (g a) = p.plainSize a
  present : ∀ name,
    (q.present (key name)).map (·.layout) = (p.present name).map fun f => g f.layout
  count : q.records.length = p.records.length

/-- The sizes that are remembered, under other names. -/
def renameMemo (key : TypeName → TypeName) (memo : SizeMemo Nat) : SizeMemo Nat :=
  memo.map fun x => (key x.1, x.2)

namespace MeasuresAs

section Sizes

variable {record record' : TypeName → SizeMemo Nat → Nat × SizeMemo Nat}
  (hrecord : ∀ name memo,
    record' (key name) (renameMemo key memo) = (record name memo).map id (renameMemo key))
include hrecord

theorem layoutSize_eq (h : q.MeasuresAs p key g) (a : Layout) (memo : SizeMemo Nat) :
    q.layoutSize record' (g a) (renameMemo key memo) =
      (p.layoutSize record a memo).map id (renameMemo key) := by
  have hname := h.recordName? a
  -- A layout that names a record in one program names its counterpart in the other.
  cases ha : a.recordName? with
  | none =>
    rw [ha] at hname
    rw [layoutSize_of_plain ha, layoutSize_of_plain hname, h.plainSize a ha]
    rfl
  | some name =>
    rw [ha] at hname
    rw [layoutSize_of_record ha, layoutSize_of_record hname, hrecord]

theorem fieldsSize_eq (h : q.MeasuresAs p key g) {fields fields' : List (Field Layout)}
    (hfields : fields'.map (·.layout) = fields.map fun f => g f.layout) (memo : SizeMemo Nat) :
    q.fieldsSize record' fields' (renameMemo key memo) =
      (p.fieldsSize record fields memo).map id (renameMemo key) := by
  -- The memo is renamed once and goes along the fields.
  induction fields generalizing fields' memo with
  | nil =>
    obtain rfl := List.map_eq_nil_iff.1 hfields
    rfl
  | cons f fields ih =>
    obtain ⟨f', rest, rfl, hf, hrest⟩ := List.map_eq_cons_iff.1 hfields
    have hfirst := h.layoutSize_eq hrecord f.layout memo
    rw [fieldsSize, fieldsSize, hf]
    simp only [hfirst, Prod.map, id, ih hrest]

end Sizes

/-- **The searches take the same steps**, by induction on the records that may still be opened. -/
theorem recordSize_eq (h : q.MeasuresAs p key g) (fuel : Nat) (opened : List TypeName)
    (name : TypeName) (memo : SizeMemo Nat) :
    q.recordSize fuel (opened.map key) (key name) (renameMemo key memo) =
      (p.recordSize fuel opened name memo).map id (renameMemo key) := by
  -- What the search looks up and what it has opened correspond under the renaming.
  have hlookup (name : TypeName) (memo : SizeMemo Nat) :
      (renameMemo key memo).lookup (key name) = memo.lookup name := by
    have := lookup_map_of_injective h.key_injective (fun _ (size : Nat) => size) memo name
    rwa [Option.map_id'] at this
  have hopened (opened : List TypeName) (name : TypeName) :
      key name ∈ opened.map key ↔ name ∈ opened :=
    List.mem_map_of_injective h.key_injective
  induction fuel generalizing opened name memo with
  | zero =>
    rw [recordSize, recordSize, hlookup]
    cases memo.lookup name with
    | some size => rfl
    | none =>
      simp only [hopened]
      split <;> rfl
  | succ fuel ih =>
    rw [recordSize, recordSize, hlookup]
    cases memo.lookup name with
    | some size => rfl
    | none =>
      simp only [hopened]
      split
      · rfl
      · -- One more record is open while its fields are measured.
        have hfields := h.fieldsSize_eq (ih (name :: opened)) (h.present name) memo
        simp only [List.map_cons] at hfields
        simp only [hfields]
        rfl

theorem minSize_eq (h : q.MeasuresAs p key g) (a : Layout) : q.minSize (g a) = p.minSize a := by
  have hrecord := h.recordSize_eq (p.records.length + 1) []
  have hsize := h.layoutSize_eq hrecord a []
  unfold minSize foundSize
  rw [h.count]
  exact congrArg (·.1) hsize

theorem countLimit_eq (h : q.MeasuresAs p key g) (member : Layout) (remaining : Nat) :
    q.countLimit (g member) remaining = p.countLimit member remaining := by
  rw [countLimit, countLimit, h.minSize_eq]

end MeasuresAs

end Program

end SchemaWire
