import SchemaWire.Layout.Basic
/-!
# The nodes of a layout

A layout is read in pre-order: a node comes before the nodes inside it, and those come in wire
order. `Layout.nodes` lists a layout in this order and `Layout.descendants` leaves out the layout
itself; a reference has no nodes inside.

Three things are read off this list: the record types that a layout spells out (`Layout.records`,
where the first occurrence of a name counts), the versions at which fields are added
(`Layout.versions`), and whether a reference comes before the record it refers to
(`Layout.dangling?`).
-/

namespace SchemaWire

/-- Puts a version into an ascending list, unless it is there already. -/
def insertVersion (v : Version) : List Version → List Version
  | [] => [v]
  | w :: ws => if v < w then v :: w :: ws else if v = w then w :: ws else w :: insertVersion v ws

/-- The versions that occur in a list, ascending, each once. -/
def ascendingVersions (vs : List Version) : List Version := vs.foldr insertVersion []

theorem mem_insertVersion {v w : Version} {vs : List Version} :
    w ∈ insertVersion v vs ↔ w = v ∨ w ∈ vs := by
  induction vs with
  | nil => simp [insertVersion]
  | cons u us ih =>
    simp only [insertVersion]
    -- The version goes before the first greater one, is there already, or goes further on.
    split
    · simp
    · split
      · next h => simp [h]
      · simp only [List.mem_cons, ih]
        exact or_left_comm

theorem mem_ascendingVersions {v : Version} {vs : List Version} :
    v ∈ ascendingVersions vs ↔ v ∈ vs := by
  induction vs with
  | nil => simp [ascendingVersions]
  | cons w ws ih =>
    rw [List.mem_cons, ← ih]
    exact mem_insertVersion

theorem pairwise_insertVersion {v : Version} {vs : List Version} (h : vs.Pairwise (· < ·)) :
    (insertVersion v vs).Pairwise (· < ·) := by
  induction vs with
  | nil => exact List.pairwise_singleton _ _
  | cons w ws ih =>
    simp only [insertVersion]
    split
    -- Smaller than the first, so smaller than all.
    · next hlt =>
      refine List.Pairwise.cons (fun u hu => ?_) h
      rcases List.mem_cons.1 hu with rfl | hu
      · exact hlt
      · exact UInt32.lt_trans hlt (List.rel_of_pairwise_cons h hu)
    · split
      · exact h
      · next hle hne =>
        refine List.Pairwise.cons (fun u hu => ?_) (ih h.of_cons)
        rcases mem_insertVersion.1 hu with rfl | hu
        · exact UInt32.lt_of_le_of_ne (UInt32.not_lt.1 hle) (Ne.symm hne)
        · exact List.rel_of_pairwise_cons h hu

theorem pairwise_ascendingVersions (vs : List Version) :
    (ascendingVersions vs).Pairwise (· < ·) := by
  induction vs with
  | nil => exact List.Pairwise.nil
  | cons v vs ih => exact pairwise_insertVersion ih

namespace Layout

mutual

/-- The nodes inside a layout, in pre-order. -/
def descendants : Layout → List Layout
  | .primitive _ | .text | .reference _ => []
  | .nullable inner => inner :: inner.descendants
  | .list member => member :: member.descendants
  | .record _ fields => fieldNodes fields
  | .subtypes _ members => memberNodes members

/-- The nodes of the fields of a record, in pre-order. -/
def fieldNodes : List (Field Layout) → List Layout
  | [] => []
  | ⟨_, _, a⟩ :: fields => (a :: a.descendants) ++ fieldNodes fields

/-- The nodes of the members of a group, in pre-order. -/
def memberNodes : List (Member Layout) → List Layout
  | [] => []
  | ⟨_, _, a⟩ :: members => (a :: a.descendants) ++ memberNodes members

end

/-- The nodes of a layout, itself first, in pre-order. -/
def nodes (a : Layout) : List Layout := a :: a.descendants

theorem fieldNodes_eq_flatMap (fields : List (Field Layout)) :
    fieldNodes fields = fields.flatMap fun f => f.layout.nodes := by
  induction fields with
  | nil => rfl
  | cons f fields ih => simp [fieldNodes, nodes, ih]

theorem memberNodes_eq_flatMap (members : List (Member Layout)) :
    memberNodes members = members.flatMap fun m => m.layout.nodes := by
  induction members with
  | nil => rfl
  | cons m members ih => simp [memberNodes, nodes, ih]

/-- The name and the fields of a record that is spelled out. -/
def spelled? : Layout → Option (TypeName × List (Field Layout))
  | .record name fields => some (name, fields)
  | _ => none

/-- The records that a layout spells out, in pre-order. -/
def records (a : Layout) : List (TypeName × List (Field Layout)) := a.nodes.filterMap spelled?

/-- The versions at which fields of a layout are added, ascending. There are none if the layout
has no fields. -/
def versions (a : Layout) : List Version :=
  ascendingVersions (a.records.flatMap fun r => r.2.map (·.added))

/-- The first reference, in a list of nodes, to a record that is neither known nor spelled out
before it. -/
def firstDangling? : (known : List TypeName) → List Layout → Option TypeName
  | _, [] => none
  | known, .record name _ :: nodes => firstDangling? (name :: known) nodes
  | known, .reference name :: nodes =>
    if name ∈ known then firstDangling? known nodes else some name
  | known, _ :: nodes => firstDangling? known nodes

/-- The first reference in a layout that comes before the record it refers to. -/
def dangling? (a : Layout) : Option TypeName := firstDangling? [] a.nodes

end Layout

end SchemaWire
