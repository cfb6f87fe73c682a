import Mathlib.Data.List.Nodup
import SchemaWire.Schema.Basic
/-!
# Schemas made of declarations

`Schema.Declared` are the schemas that come about by declaring records and groups one after another,
starting from nothing. Every declaration in such a schema has passed its own check
(`Schema.Declared.check_record`, `Schema.Declared.check_group`), so the fields of a record have
different names, and the members of a group different types and different tags.
-/

namespace SchemaWire

/-- **The schemas that can arise.** -/
inductive Schema.Declared : Schema → Prop
  | empty : Declared {}
  | record {s s' : Schema} {d : RecordDecl} (h : Declared s) (hd : s.declareRecord d = .ok s') :
      Declared s'
  | group {s s' : Schema} {d : GroupDecl} (h : Declared s) (hd : s.declareGroup d = .ok s') :
      Declared s'

/-- A declared field is the same as another one, except maybe for its order key. -/
def FieldDecl.Matches (f g : FieldDecl) : Prop :=
  g.name = f.name ∧ g.type = f.type ∧ g.added = f.added ∧ g.varLength = f.varLength

theorem FieldDecl.Matches.refl (f : FieldDecl) : f.Matches f := ⟨rfl, rfl, rfl, rfl⟩

/-- The check passes exactly if none of its tests finds something. -/
theorem RecordDecl.check_eq_ok_iff_tests {d : RecordDecl} : d.check = .ok () ↔
    firstRepeated? [] (d.fields.map (·.name)) = none ∧
    ¬((d.fields.filterMap (·.order)).length ≠ 0 ∧
      (d.fields.filterMap (·.order)).length ≠ d.fields.length) ∧
    firstRepeated? [] (d.fields.filterMap (·.order)) = none ∧
    firstDescent? d.wireFields = none ∧
    d.fields.find? (!·.lengthAllowed) = none := by
  unfold check
  -- The checks one by one; the first that fails ends the declaration with its error.
  cases firstRepeated? [] (d.fields.map (·.name)) with
  | some name => exact ⟨nofun, nofun⟩
  | none =>
    simp only [true_and]
    split
    · next hkeys => exact ⟨nofun, fun h => absurd hkeys h.1⟩
    · next hkeys =>
      rw [eq_true hkeys, true_and]
      cases firstRepeated? [] (d.fields.filterMap (·.order)) with
      | some key => exact ⟨nofun, nofun⟩
      | none =>
        rw [eq_self, true_and]
        cases firstDescent? d.wireFields with
        | some fg => exact ⟨nofun, nofun⟩
        | none =>
          rw [eq_self, true_and]
          cases d.fields.find? (!·.lengthAllowed) with
          | some f => exact ⟨nofun, nofun⟩
          | none => exact ⟨fun _ => rfl, fun _ => rfl⟩

theorem RecordDecl.nodup_of_check {d : RecordDecl} (h : d.check = .ok ()) :
    (d.fields.map (·.name)).Nodup :=
  (firstRepeated?_eq_none_iff.1 (check_eq_ok_iff_tests.1 h).1).1

theorem RecordDecl.nodup_wireFields {d : RecordDecl} (h : d.check = .ok ()) :
    (d.wireFields.map (·.name)).Nodup :=
  (((List.mergeSort_perm _ _).map _).nodup_iff).2 (nodup_of_check h)

theorem RecordDecl.mem_wireFields {d : RecordDecl} {f : FieldDecl} :
    f ∈ d.wireFields ↔ f ∈ d.fields :=
  (List.mergeSort_perm _ _).mem_iff

/-- Where no neighbour is older than the one before it, no later field is. -/
theorem pairwise_of_firstDescent?_eq_none {fields : List FieldDecl}
    (h : firstDescent? fields = none) : fields.Pairwise fun f g => f.added ≤ g.added := by
  fun_induction firstDescent? fields with
  | case1 f g fields hdescent => cases h
  | case2 f g fields hdescent ih =>
    -- Neighbours are in order, and `≤` is transitive.
    have hfg : f.added ≤ g.added := UInt32.not_lt.1 hdescent
    have hrest := ih h
    refine .cons (List.forall_mem_cons.2 ⟨hfg, fun x hx => ?_⟩) hrest
    exact UInt32.le_trans hfg (List.rel_of_pairwise_cons hrest hx)
  | case3 fields hshort =>
    match fields with
    | [] => exact .nil
    | [f] => exact List.pairwise_singleton _ f
    | f :: g :: fields => exact absurd rfl (hshort f g fields)

/-- **Later versions only append**: in wire order, no field is older than one before it. -/
theorem RecordDecl.pairwise_wireFields {d : RecordDecl} (h : d.check = .ok ()) :
    d.wireFields.Pairwise fun f g => f.added ≤ g.added := by
  obtain ⟨-, -, -, hdescent, -⟩ := check_eq_ok_iff_tests.1 h
  exact pairwise_of_firstDescent?_eq_none hdescent

theorem GroupDecl.nodup_of_check {d : GroupDecl} (h : d.check = .ok ()) : d.memberTypes.Nodup := by
  cases hrepeated : firstRepeated? [] d.memberTypes with
  | none => exact (firstRepeated?_eq_none_iff.1 hrepeated).1
  | some type =>
    unfold check at h
    simp only [hrepeated] at h
    split at h <;> cases h

/-- The tags of a group differ, and its types are those of its members. -/
theorem GroupDecl.taggedMembers_eq_ok {d : GroupDecl} {tagged : List (UInt32 × TypeName)}
    (h : d.taggedMembers = .ok tagged) : tagged = d.tags ∧ (tagged.map (·.1)).Nodup := by
  unfold taggedMembers at h
  split at h
  · cases h
  · next hnone =>
    cases h
    exact ⟨rfl, (firstRepeated?_eq_none_iff.1 hnone).1⟩

/-- A group that has passed its check has tags. -/
theorem GroupDecl.taggedMembers_of_check {d : GroupDecl} (h : d.check = .ok ()) :
    d.taggedMembers = .ok d.tags := by
  unfold taggedMembers
  cases hrepeated : firstRepeated? [] (d.tags.map (·.1)) with
  | none => rfl
  | some tag =>
    have htagged : d.taggedMembers = .error (.duplicateTag d.name tag) := by
      unfold taggedMembers
      simp only [hrepeated]
    -- Whatever the checks before this one say, the tags are refused at last.
    unfold check at h
    rw [htagged] at h
    cases hempty : d.members.isEmpty <;> cases htypes : firstRepeated? [] d.memberTypes <;>
      simp only [hempty, htypes] at h <;> cases h

theorem GroupDecl.map_snd_tags (d : GroupDecl) : d.tags.map (·.2) = d.memberTypes := by
  unfold tags memberTypes
  rw [List.map_map]
  change d.members.zipIdx.map ((·.type) ∘ Prod.fst) = _
  rw [← List.map_map, List.zipIdx_map_fst]

namespace Schema

variable {s : Schema}

theorem record?_eq_some {name : TypeName} {d : RecordDecl} (h : s.record? name = some d) :
    d ∈ s.records ∧ d.name = name :=
  ⟨List.mem_of_find?_eq_some h, by simpa using List.find?_some h⟩

theorem group?_eq_some {name : GroupName} {d : GroupDecl} (h : s.group? name = some d) :
    d ∈ s.groups ∧ d.name = name :=
  ⟨List.mem_of_find?_eq_some h, by simpa using List.find?_some h⟩

/-- A declaration that passes its check is taken in where its name is free. -/
theorem declareRecord_of_none {d : RecordDecl} (hcheck : d.check = .ok ())
    (hname : s.record? d.name = none) :
    s.declareRecord d = .ok { s with records := s.records ++ [d] } := by
  unfold declareRecord
  rw [hcheck]
  simp only [hname]
  rfl

theorem Declared.append_record {d : RecordDecl} (h : s.Declared) (hcheck : d.check = .ok ())
    (hname : s.record? d.name = none) : Declared { s with records := s.records ++ [d] } :=
  .record h (declareRecord_of_none hcheck hname)

/-- Every declaration in a schema has passed its check. -/
theorem Declared.checked (h : s.Declared) :
    (∀ d ∈ s.records, d.check = .ok ()) ∧ ∀ d ∈ s.groups, d.check = .ok () := by
  -- Only what passes its check is added.
  induction h with
  | empty => exact ⟨List.forall_mem_nil _, List.forall_mem_nil _⟩
  | @record s s' d _ hd ih =>
    unfold declareRecord at hd
    obtain ⟨⟨⟩, hcheck, hd⟩ := bind_eq_ok_iff.1 hd
    split at hd
    · split at hd <;> cases hd
      exact ih
    · cases hd
      refine ⟨fun d' hd' => ?_, ih.2⟩
      rcases List.mem_append.1 hd' with hd' | hd'
      · exact ih.1 d' hd'
      · exact List.mem_singleton.1 hd' ▸ hcheck
  | @group s s' d _ hd ih =>
    unfold declareGroup at hd
    obtain ⟨⟨⟩, hcheck, hd⟩ := bind_eq_ok_iff.1 hd
    split at hd
    · split at hd <;> cases hd
      exact ih
    · cases hd
      refine ⟨ih.1, fun d' hd' => ?_⟩
      rcases List.mem_append.1 hd' with hd' | hd'
      · exact ih.2 d' hd'
      · exact List.mem_singleton.1 hd' ▸ hcheck

end Schema

end SchemaWire
