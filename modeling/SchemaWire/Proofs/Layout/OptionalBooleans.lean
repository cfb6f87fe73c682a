import Mathlib.Algebra.BigOperators.Group.List.Basic
import Mathlib.Algebra.Ring.Nat
import SchemaWire.Proofs.Layout.NormalForm
/-!
# Booleans that may be missing

Where a boolean may be missing, a value holds a null or the boolean. `Snapshot.optionalBooleans` is
how many booleans a value holds at such places, in lists and in the fields of records that are on
the wire. Like a normal form it goes by the value: the fields of a record are laid out as its own
type says.
-/

namespace SchemaWire

/-- A nullable around a boolean. -/
def Layout.isOptionalBoolean : Layout → Bool
  | .nullable (.primitive q) => q.kind = .bool
  | _ => false

namespace Snapshot

mutual

/-- **How many booleans a value holds where they may be missing**, on the wire in a layout. -/
def optionalBooleans (s : Snapshot) (a : Layout) : Value → Nat
  | .scalar _ | .wrapped (some _) => if a.isOptionalBoolean then 1 else 0
  | .null | .wrapped none | .text _ => 0
  | .list vs => s.optionalBooleansOfMembers a.member vs
  | .record type fields => s.optionalBooleansOfFields (s.present type) fields

def optionalBooleansOfMembers (s : Snapshot) (member : Layout) : List Value → Nat
  | [] => 0
  | v :: vs => s.optionalBooleans member v + s.optionalBooleansOfMembers member vs

/-- Of several fields with one name the first counts. -/
def optionalBooleansOfFields (s : Snapshot) (wanted : List (Field Layout)) :
    List (String × Value) → Nat
  | [] => 0
  | (k, v) :: fields =>
    (match layoutOf? wanted k with
      | some a => s.optionalBooleans a v
      | none => 0) + s.optionalBooleansOfFields (wanted.filter (·.name ≠ k)) fields

end

variable {s : Snapshot}

theorem optionalBooleans_of_isNull {v : Value} (h : v.isNull = true) (a : Layout) :
    s.optionalBooleans a v = 0 := by
  cases v with
  | null => rfl
  | wrapped box =>
    cases box with
    | none => rfl
    | some x => cases h
  | _ => cases h

theorem optionalBooleans_list (a : Layout) (vs : List Value) :
    s.optionalBooleans a (.list vs) = (vs.map (s.optionalBooleans a.member)).sum := by
  rw [optionalBooleans]
  induction vs with
  | nil => rfl
  | cons v vs ih => rw [optionalBooleansOfMembers, ih, List.map_cons, List.sum_cons]

/-- A nullable around anything but a nullable or a boolean makes no difference. -/
theorem optionalBooleans_nullable {inner : Layout} (hinner : inner.isNullable = false)
    (h : (Layout.nullable inner).isOptionalBoolean = false) (v : Value) :
    s.optionalBooleans (.nullable inner) v = s.optionalBooleans inner v := by
  -- Only an option is an optional boolean, and what is inside is none.
  have hplain : inner.isOptionalBoolean = false := by
    cases inner with
    | nullable _ => cases hinner
    | _ => rfl
  cases v with
  | wrapped box => cases box <;> simp only [optionalBooleans, h, hplain]
  | list vs => rw [optionalBooleans_list, optionalBooleans_list, Layout.member_nullable]
  | _ => simp only [optionalBooleans, h, hplain]

/-- The booleans in a field, if a record holds it. -/
def optionalBooleansAt (s : Snapshot) (fields : FieldMap Value) (f : Field Layout) : Nat :=
  match fields.find? f.name with
  | some v => s.optionalBooleans f.layout v
  | none => 0

theorem layoutOf?_cons (f : Field Layout) (fields : List (Field Layout)) (name : String) :
    layoutOf? (f :: fields) name =
      if f.name = name then some f.layout else layoutOf? fields name := by
  unfold layoutOf?
  by_cases h : f.name = name
  · rw [List.find?_cons_of_pos (by simpa using h), if_pos h, Option.map_some]
  · rw [List.find?_cons_of_neg (by simpa using h), if_neg h]

/-- A field of a record comes to the booleans in its value, wherever it stands among those that are
wanted. -/
theorem sum_optionalBooleansAt_cons {wanted : List (Field Layout)}
    (hnames : (wanted.map (·.name)).Nodup) (k : String) (v : Value) (fields : FieldMap Value) :
    (wanted.map (s.optionalBooleansAt ((k, v) :: fields))).sum =
      (match layoutOf? wanted k with
        | some a => s.optionalBooleans a v
        | none => 0) +
        ((wanted.filter (·.name ≠ k)).map (s.optionalBooleansAt fields)).sum := by
  induction wanted with
  | nil => rfl
  | cons f wanted ih =>
    rw [List.map_cons, List.nodup_cons] at hnames
    rw [List.map_cons, List.sum_cons, ih hnames.2, layoutOf?_cons]
    by_cases hf : f.name = k
    · -- No other field has this name.
      have hrest : layoutOf? wanted k = none := by
        refine Option.map_eq_none_iff.2 (List.find?_eq_none.2 fun g hg hname => ?_)
        exact hnames.1 (List.mem_map.2 ⟨g, hg, (of_decide_eq_true hname).trans hf.symm⟩)
      have hfirst : s.optionalBooleansAt ((k, v) :: fields) f = s.optionalBooleans f.layout v := by
        rw [optionalBooleansAt, hf, FieldMap.find?_cons_self]
      rw [hrest, hfirst, if_pos hf, List.filter_cons_of_neg (by simpa using hf), Nat.zero_add]
    · have hfirst : s.optionalBooleansAt ((k, v) :: fields) f = s.optionalBooleansAt fields f := by
        rw [optionalBooleansAt, optionalBooleansAt, FieldMap.find?_cons_of_ne (Ne.symm hf)]
      rw [hfirst, if_neg hf, List.filter_cons_of_pos (by simpa using hf), List.map_cons,
        List.sum_cons]
      omega

/-- **The booleans in a record** are those in its fields on the wire. -/
theorem optionalBooleans_record {type : TypeName} (hnames : ((s.present type).map (·.name)).Nodup)
    (a : Layout) (fields : FieldMap Value) :
    s.optionalBooleans a (.record type fields) =
      ((s.present type).map (s.optionalBooleansAt fields)).sum := by
  rw [optionalBooleans]
  -- The fields that are still wanted get fewer with each entry, so the statement is about any list
  -- of them.
  generalize s.present type = wanted at hnames
  induction fields generalizing wanted with
  | nil =>
    rw [optionalBooleansOfFields, List.sum_eq_zero]
    intro n hn
    obtain ⟨f, -, rfl⟩ := List.mem_map.1 hn
    rfl
  | cons x fields ih =>
    obtain ⟨k, v⟩ := x
    have hrest : ((wanted.filter (·.name ≠ k)).map (·.name)).Nodup :=
      hnames.sublist (List.filter_sublist.map _)
    rw [optionalBooleansOfFields, sum_optionalBooleansAt_cons hnames, ih _ hrest]

end Snapshot

end SchemaWire
