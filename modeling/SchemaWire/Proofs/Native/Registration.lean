import Mathlib.Data.Fintype.Card
import SchemaWire.Native.Building
import SchemaWire.Proofs.Schema.Declaration
/-!
# Registration step by step

Registration opens a record type, declares it, and goes on with the types of its fields. It comes to
an end although record types contain one another: a type that asks first is opened only while its
name is free, and the others are numbered so that they contain only smaller ones. `NativeTypes.cost`
counts down with every type that is opened (`NativeTypes.cost_lt`), so the bound on the depth of
registration is never reached, and it can be left out: registering a record type is what declaring it
and registering its fields comes to (`NativeTypes.register_record`).

What a type does whose name is taken already depends on whether it asks
(`NativeTypes.register_record_of_known`).
-/

namespace SchemaWire

variable {Γ : NativeTypes} {i j : Fin Γ.count} {s s' : Schema} {t : NativeType Γ.count}
  {f : NativeField Γ.count}

/-- A schema knows all record names that another one knows. -/
def Schema.Knows (s' s : Schema) : Prop :=
  ∀ name, (s.record? name).isSome = true → (s'.record? name).isSome = true

theorem Schema.Knows.trans {s'' : Schema} (h : s''.Knows s') (h' : s'.Knows s) : s''.Knows s :=
  fun name hname => h name (h' name hname)

theorem Schema.record?_append {d : RecordDecl} {name : TypeName} :
    ({ s with records := s.records ++ [d] } : Schema).record? name =
      (s.record? name).or (if d.name = name then some d else none) := by
  unfold record?
  rw [List.find?_append, List.find?_singleton]
  simp

/-- **Declaring a record type** makes its name known, and changes no other name. -/
theorem Schema.record?_of_declareRecord {d : RecordDecl} (h : s.declareRecord d = .ok s') :
    s'.record? d.name = some d ∧ ∀ name, name ≠ d.name → s'.record? name = s.record? name := by
  unfold declareRecord at h
  obtain ⟨-, -, h⟩ := bind_eq_ok_iff.1 h
  split at h
  · next known hknown =>
    -- The name is taken, and it must be by the same declaration.
    split at h
    · next heq =>
      cases h
      exact ⟨heq ▸ hknown, fun _ _ => rfl⟩
    · cases h
  · next hfree =>
    cases h
    refine ⟨?_, fun name hname => ?_⟩
    · rw [record?_append, hfree, if_pos rfl]
      rfl
    · rw [record?_append, if_neg hname.symm, Option.or_none]

theorem Schema.knows_of_declareRecord {d : RecordDecl} (h : s.declareRecord d = .ok s') :
    s'.Knows s := by
  intro name hname
  obtain ⟨hself, hothers⟩ := record?_of_declareRecord h
  by_cases heq : name = d.name
  · rw [heq, hself]
    rfl
  · rwa [hothers name heq]

namespace NativeTypes

/-! ### What registration leaves behind -/

theorem knows_registerType {record : Fin Γ.count → Schema → Except SchemaError Unit × Schema}
    (hrecord : ∀ j s, (record j s).2.Knows s) (t : NativeType Γ.count) (s : Schema) :
    (Γ.registerType record t s).2.Knows s := by
  unfold registerType
  split
  · exact hrecord _ s
  · exact fun _ h => h

theorem knows_registerFields {record : Fin Γ.count → Schema → Except SchemaError Unit × Schema}
    (hrecord : ∀ j s, (record j s).2.Knows s) (fields : List (NativeField Γ.count)) (s : Schema) :
    (Γ.registerFields record fields s).2.Knows s := by
  -- Registering what a field refers to keeps names, and so does every step behind it.
  induction fields generalizing s with
  | nil => exact fun _ h => h
  | cons f fields ih =>
    have hfirst := knows_registerType hrecord f.type s
    rw [registerFields]
    split
    · next s' heq =>
      rw [heq] at hfirst
      exact (ih s').trans hfirst
    · next heq =>
      rw [heq] at hfirst
      exact hfirst

/-- **Nothing that is known is forgotten**, whether registration fails or not. -/
theorem knows_registerRecord (fuel : Nat) (i : Fin Γ.count) (s : Schema) :
    (Γ.registerRecord fuel i s).2.Knows s := by
  -- A record that is passed over or refused changes nothing; a declared one goes on with its
  -- fields.
  induction fuel generalizing i s with
  | zero => exact fun _ h => h
  | succ fuel ih =>
    rw [registerRecord]
    split
    · exact fun _ h => h
    · split
      · exact fun _ h => h
      · next hdeclare =>
        exact (knows_registerFields ih _ _).trans (Schema.knows_of_declareRecord hdeclare)

/-! ### Coming to an end -/

/-- A type that asks first while its name is free. -/
def Unopened (Γ : NativeTypes) (s : Schema) (i : Fin Γ.count) : Prop :=
  (Γ.record i).asksFirst = true ∧ (s.record? (Γ.record i).name).isSome = false

instance (Γ : NativeTypes) (s : Schema) : DecidablePred (Γ.Unopened s) :=
  fun _ => inferInstanceAs (Decidable (_ ∧ _))

/-- The types that ask first and whose names are free. -/
def unopened (Γ : NativeTypes) (s : Schema) : Finset (Fin Γ.count) :=
  Finset.univ.filter (Γ.Unopened s)

/-- **How deep registration can still go**, from a type: all types that ask may be opened once each,
and below each of them, as above the first, others that do not ask. -/
def cost (Γ : NativeTypes) (s : Schema) (i : Fin Γ.count) : Nat :=
  (Γ.unopened s).card * (Γ.count + 1) + if (Γ.record i).asksFirst then 0 else i.val + 1

theorem mem_unopened : i ∈ Γ.unopened s ↔ Γ.Unopened s i := by
  rw [unopened, Finset.mem_filter_univ]

theorem unopened_subset_of_knows (h : s'.Knows s) : Γ.unopened s' ⊆ Γ.unopened s := by
  intro i hi
  obtain ⟨hasks, hfree⟩ := mem_unopened.1 hi
  refine mem_unopened.2 ⟨hasks, eq_false_of_ne_true fun hknown => ?_⟩
  rw [h _ hknown] at hfree
  cases hfree

/-- Opening a type that asks leaves fewer of them. -/
theorem unopened_ssubset_of_knows (h : s'.Knows s) (hi : Γ.Unopened s i)
    (hknown : (s'.record? (Γ.record i).name).isSome = true) : Γ.unopened s' ⊂ Γ.unopened s := by
  refine (Finset.ssubset_iff_of_subset (unopened_subset_of_knows h)).2
    ⟨i, mem_unopened.2 hi, fun hmem => ?_⟩
  rw [(mem_unopened.1 hmem).2] at hknown
  cases hknown

theorem cost_le (Γ : NativeTypes) (s : Schema) (i : Fin Γ.count) :
    Γ.cost s i ≤ (Γ.unopened s).card * (Γ.count + 1) + Γ.count := by
  unfold cost
  split
  · omega
  · have := i.isLt
    omega

/-- The depth that registration is allowed is enough. -/
theorem cost_lt_registrationDepth (Γ : NativeTypes) (s : Schema) (i : Fin Γ.count) :
    Γ.cost s i < Γ.registrationDepth := by
  have hcard : (Γ.unopened s).card ≤ Γ.count := by
    simpa using Finset.card_le_univ (Γ.unopened s)
  have hcost := Γ.cost_le s i
  have hmul := Nat.mul_le_mul_right (Γ.count + 1) hcard
  have hdepth : Γ.registrationDepth = Γ.count * (Γ.count + 1) + (Γ.count + 1) := Nat.succ_mul _ _
  omega

/-- A name is known, and its type is taken for it. -/
def Passes (Γ : NativeTypes) (s : Schema) (i : Fin Γ.count) : Prop :=
  ((Γ.record i).asksFirst && (s.record? (Γ.record i).name).isSome) = true

instance (Γ : NativeTypes) (s : Schema) (i : Fin Γ.count) : Decidable (Γ.Passes s i) :=
  inferInstanceAs (Decidable (_ = true))

/-- **Every type that is opened brings the end nearer**, whatever else is declared meanwhile. -/
theorem cost_lt {s₁ : Schema} (hopen : ¬Γ.Passes s i) (hdeclare : s.declareRecord (Γ.decl i) = .ok s₁)
    (hknows : s'.Knows s₁) (hf : f ∈ (Γ.record i).fields) (hj : f.type.record? = some j) :
    Γ.cost s' j < Γ.cost s i := by
  have hall := hknows.trans (Schema.knows_of_declareRecord hdeclare)
  by_cases hasks : (Γ.record i).asksFirst = true
  · -- One more type that asks has been opened.
    have hunopened : Γ.Unopened s i := by
      refine ⟨hasks, eq_false_of_ne_true fun hknown => hopen ?_⟩
      rw [Passes, hasks, hknown]
      rfl
    have hname : (s₁.record? (Γ.record i).name).isSome = true := by
      rw [show s₁.record? (Γ.record i).name = some (Γ.decl i) from
        (Schema.record?_of_declareRecord hdeclare).1]
      rfl
    have hcard := Finset.card_lt_card (unopened_ssubset_of_knows hall hunopened (hknows _ hname))
    have hmul := Nat.mul_le_mul_right (Γ.count + 1) (Nat.succ_le_of_lt hcard)
    rw [Nat.succ_mul] at hmul
    have hcost := Γ.cost_le s' j
    rw [cost.eq_def Γ s i, if_pos hasks]
    omega
  · -- The field holds a type that asks, or one with a smaller number.
    have hcard := Finset.card_le_card (unopened_subset_of_knows (Γ := Γ) hall)
    have hmul := Nat.mul_le_mul_right (Γ.count + 1) hcard
    have hguarded := Γ.guarded i (eq_false_of_ne_true hasks) f hf j hj
    rw [cost, cost, if_neg hasks]
    split
    · omega
    · next hplain =>
      have hlt : j.val < i.val := hguarded.resolve_left hplain
      omega

/-- Fields are registered alike where their types are. By induction on the fields, since each of them
may add to the schema. -/
theorem registerFields_congr
    {record record' : Fin Γ.count → Schema → Except SchemaError Unit × Schema}
    (hrecord : ∀ j s, (record j s).2.Knows s) {fields : List (NativeField Γ.count)}
    (h : ∀ f ∈ fields, ∀ j, f.type.record? = some j → ∀ s' : Schema, s'.Knows s →
      record j s' = record' j s') :
    Γ.registerFields record fields s = Γ.registerFields record' fields s := by
  -- The two calls agree as long as the schema has only grown, which is all that happens on the way.
  induction fields generalizing s with
  | nil => rfl
  | cons f fields ih =>
    obtain ⟨hf, hfields⟩ := List.forall_mem_cons.1 h
    have hsame : Γ.registerType record f.type s = Γ.registerType record' f.type s := by
      unfold registerType
      split
      · next j hj => exact hf j hj s fun _ h => h
      · rfl
    have hknows := knows_registerType hrecord f.type s
    rw [registerFields, registerFields, ← hsame]
    split
    · next s' heq =>
      rw [heq] at hknows
      exact ih fun f hf j hj s'' hs'' => hfields f hf j hj s'' (hs''.trans hknows)
    · rfl

/-- A type that costs nothing is known already. -/
theorem registerRecord_of_cost_eq_zero (h : Γ.cost s i = 0) (fuel : Nat) :
    Γ.registerRecord fuel i s = (.ok (), s) := by
  cases fuel with
  | zero => rfl
  | succ fuel =>
    rw [registerRecord, if_pos]
    -- A record that is not passed over is among the unopened ones, which makes the cost positive.
    by_contra hopen
    unfold cost at h
    split at h
    · next hasks =>
      have hmem : i ∈ Γ.unopened s := by
        refine mem_unopened.2 ⟨hasks, eq_false_of_ne_true fun hknown => hopen ?_⟩
        rw [hasks, hknown]
        rfl
      have hpos := Nat.mul_pos (Finset.card_pos.2 ⟨i, hmem⟩) (show 0 < Γ.count + 1 by omega)
      omega
    · omega

/-- **The bound on the depth does not show**, as long as it is not too small. By induction on one of
the two bounds: what is opened costs less than the type that it is opened for. -/
theorem registerRecord_eq {fuel fuel' : Nat} (h : Γ.cost s i ≤ fuel) (h' : Γ.cost s i ≤ fuel') :
    Γ.registerRecord fuel i s = Γ.registerRecord fuel' i s := by
  -- Opening a record lowers the cost, so the fuel is enough for what its fields refer to.
  induction fuel generalizing i s fuel' with
  | zero =>
    have hzero := Nat.le_zero.1 h
    rw [registerRecord_of_cost_eq_zero hzero, registerRecord_of_cost_eq_zero hzero]
  | succ fuel ih =>
    cases fuel' with
    | zero =>
      have hzero := Nat.le_zero.1 h'
      rw [registerRecord_of_cost_eq_zero hzero, registerRecord_of_cost_eq_zero hzero]
    | succ fuel' =>
      rw [registerRecord, registerRecord]
      split
      · rfl
      · next hopen =>
        split
        · rfl
        · next s₁ hdeclare =>
          refine registerFields_congr (knows_registerRecord fuel) fun f hf j hj s' hs' => ?_
          have hlt := cost_lt hopen hdeclare hs' hf hj
          exact ih (by omega) (by omega)

/-! ### Registration without a bound -/

/-- Registers the types of fields, one after another. -/
abbrev registerAll (Γ : NativeTypes) (fields : List (NativeField Γ.count)) (s : Schema) :
    Except SchemaError Unit × Schema :=
  Γ.registerFields (fun j => Γ.register (.record j)) fields s

/-- **Registration of a record type** is its declaration and the registration of its fields, unless
it asks and is known. -/
theorem register_record (Γ : NativeTypes) (i : Fin Γ.count) (s : Schema) :
    Γ.register (.record i) s =
      if Γ.Passes s i then (.ok (), s)
      else
        match s.declareRecord (Γ.decl i) with
        | .error e => (.error e, s)
        | .ok s => Γ.registerAll (Γ.record i).fields s := by
  obtain ⟨depth, hdepth⟩ : ∃ depth, Γ.registrationDepth = depth + 1 :=
    Nat.exists_eq_succ_of_ne_zero (Nat.ne_of_gt (Nat.zero_lt_of_lt (Γ.cost_lt_registrationDepth s i)))
  have hregister (j : Fin Γ.count) :
      Γ.register (.record j) = Γ.registerRecord Γ.registrationDepth j := rfl
  have hcost := Γ.cost_lt_registrationDepth s i
  rw [hregister, hdepth, registerRecord]
  by_cases hopen : Γ.Passes s i
  · rw [if_pos hopen]
    exact if_pos hopen
  · rw [if_neg hopen]
    refine (if_neg hopen).trans ?_
    cases hdeclare : s.declareRecord (Γ.decl i) with
    | error e => rfl
    | ok s₁ =>
      -- The fields cost less, so that they can do with one less, and with all of it as well.
      refine registerFields_congr (knows_registerRecord depth) fun f hf j hj s' hs' => ?_
      have hlt := cost_lt hopen hdeclare hs' hf hj
      exact registerRecord_eq (by omega) (by omega)

theorem register_eq (Γ : NativeTypes) (t : NativeType Γ.count) (s : Schema) :
    Γ.register t s = match t.record? with
      | some i => Γ.register (.record i) s
      | none => (.ok (), s) := rfl

/-- **A type whose name is taken.** If it asks first, it makes do with what there is. If it does not,
then what there is must be its own declaration, and its fields are registered in any case. -/
theorem register_record_of_known {d : RecordDecl} (hcheck : (Γ.decl i).check = .ok ())
    (hknown : s.record? (Γ.record i).name = some d) :
    Γ.register (.record i) s =
      if (Γ.record i).asksFirst then (.ok (), s)
      else if d = Γ.decl i then Γ.registerAll (Γ.record i).fields s
      else (.error (.duplicateRecord (Γ.record i).name), s) := by
  -- The name is taken, so the check of the declaration decides between repeated and refused.
  have hdeclare : s.declareRecord (Γ.decl i) =
      if d = Γ.decl i then .ok s else .error (.duplicateRecord (Γ.record i).name) := by
    unfold Schema.declareRecord
    rw [hcheck, show s.record? (Γ.decl i).name = some d from hknown]
    change (if d = Γ.decl i then (pure s : Except SchemaError Schema) else _) = _
    rfl
  have hpasses : Γ.Passes s i ↔ (Γ.record i).asksFirst = true := by
    unfold Passes
    rw [hknown, Option.isSome_some, Bool.and_true]
  rw [register_record, hdeclare]
  -- A type that asks first stops at the name; any other compares the declarations.
  by_cases hasks : (Γ.record i).asksFirst = true
  · rw [if_pos (hpasses.2 hasks), if_pos hasks]
  · rw [if_neg (mt hpasses.1 hasks), if_neg hasks]
    by_cases hsame : d = Γ.decl i
    · rw [if_pos hsame, if_pos hsame]
    · rw [if_neg hsame, if_neg hsame]

end NativeTypes

end SchemaWire
