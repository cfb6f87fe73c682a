import SchemaWire.Proofs.Schema.Acceptance
/-!
# Declaring one thing after another

A schema grows by calls, each of which declares a record type or a group (`Declaration`) and may be
refused. Records and groups are kept under names of their own (`DeclName`), and what a schema has
under a name is an **entry** (`Schema.known?`).

* `Schema.declare_eq_ok_iff` says once what a call can do. It accepts what is consistent and known
  as it is, or consistent and unknown; then the declaration is an entry
  (`Schema.known?_of_declare`), and nothing else is touched.
* `Schema.after` runs calls and goes on after a refusal; `Schema.declareAll` wants all of them
  accepted. Whether they are is a matter of which declarations there are
  (`Schema.exists_declareAll_eq_ok_iff`), and so is what entries there are at the end
  (`Schema.known?_of_declareAll`). Neither says anything about an order, so the order of the calls
  makes no difference.
-/

namespace SchemaWire

/-- What is declared by a call. -/
inductive Declaration where
  | record (d : RecordDecl)
  | group (d : GroupDecl)
deriving DecidableEq, Repr

/-- What a declaration is kept under. A group may be called like a record. -/
inductive DeclName where
  | record (name : TypeName)
  | group (name : GroupName)
deriving DecidableEq, Repr

namespace Declaration

/-- What a declaration is kept under. -/
def name : Declaration → DeclName
  | .record d => .record d.name
  | .group d => .group d.name

/-- **What makes a record type or a group.** -/
def Consistent : Declaration → Prop
  | .record d => d.Consistent
  | .group d => d.Consistent

end Declaration

namespace Schema

variable {s s' : Schema} {c known : Declaration} {calls calls' : List Declaration} {name : DeclName}

/-- What a schema has under a name. -/
def known? (s : Schema) : DeclName → Option Declaration
  | .record name => (s.record? name).map .record
  | .group name => (s.group? name).map .group

/-- Takes in a declaration. -/
def declare (s : Schema) : Declaration → Except SchemaError Schema
  | .record d => s.declareRecord d
  | .group d => s.declareGroup d

/-- Takes in one declaration after another, as long as none is refused. -/
def declareAll (s : Schema) (calls : List Declaration) : Except SchemaError Schema :=
  calls.foldlM declare s

/-- The schema after a call, be it accepted or refused. -/
def afterCall (s : Schema) (c : Declaration) : Schema :=
  match s.declare c with
  | .ok s' => s'
  | .error _ => s

/-- The schema after a sequence of calls, some of which may be refused. -/
def after (s : Schema) (calls : List Declaration) : Schema := calls.foldl afterCall s

/-- A schema with one more declaration. -/
def add (s : Schema) : Declaration → Schema
  | .record d => { s with records := s.records ++ [d] }
  | .group d => { s with groups := s.groups ++ [d] }

/-! ### Entries -/

@[simp] theorem known?_record (s : Schema) (name : TypeName) :
    s.known? (.record name) = (s.record? name).map .record := rfl

@[simp] theorem known?_group (s : Schema) (name : GroupName) :
    s.known? (.group name) = (s.group? name).map .group := rfl

/-- A declaration that is added is found where nothing was. -/
theorem known?_add (s : Schema) (c : Declaration) (name : DeclName) :
    (s.add c).known? name = (s.known? name).or (if c.name = name then some c else none) := by
  cases c with
  | record d =>
    cases name with
    | record name =>
      simp only [known?_record, add, record?, Declaration.name, List.find?_append,
        List.find?_singleton, Option.map_or, DeclName.record.injEq, decide_eq_true_eq]
      split <;> rfl
    -- Records and groups have names of their own, so the other kind is left alone.
    | group name =>
      rw [if_neg nofun, Option.or_none]
      rfl
  | group d =>
    cases name with
    | record name =>
      rw [if_neg nofun, Option.or_none]
      rfl
    | group name =>
      simp only [known?_group, add, group?, Declaration.name, List.find?_append,
        List.find?_singleton, Option.map_or, DeclName.group.injEq, decide_eq_true_eq]
      split <;> rfl

/-! ### One call -/

/-- **What a call can do.** It accepts what is consistent and either there as it is, or not there at
all. -/
theorem declare_eq_ok_iff : s.declare c = .ok s' ↔ c.Consistent ∧
    (s.known? c.name = some c ∧ s' = s ∨ s.known? c.name = none ∧ s' = s.add c) := by
  cases c with
  | record d =>
    change s.declareRecord d = .ok s' ↔ d.Consistent ∧ _
    unfold declareRecord
    -- A declaration that is in order is new, repeated or contradicted.
    rw [bind_eq_ok_iff, ← RecordDecl.check_eq_ok_iff]
    refine Unique.exists_iff.trans (and_congr_right fun _ => ?_)
    cases hfound : s.record? d.name with
    | none => simp [known?, Declaration.name, hfound, add, eq_comm, pure, Except.pure]
    | some known =>
      by_cases hknown : known = d <;>
        simp [known?, Declaration.name, hfound, hknown, @eq_comm _ s, pure, Except.pure]
  | group d =>
    change s.declareGroup d = .ok s' ↔ d.Consistent ∧ _
    unfold declareGroup
    rw [bind_eq_ok_iff, ← GroupDecl.check_eq_ok_iff]
    refine Unique.exists_iff.trans (and_congr_right fun _ => ?_)
    cases hfound : s.group? d.name with
    | none => simp [known?, Declaration.name, hfound, add, eq_comm, pure, Except.pure]
    | some known =>
      by_cases hknown : known = d <;>
        simp [known?, Declaration.name, hfound, hknown, @eq_comm _ s, pure, Except.pure]

/-- **Whether a call is accepted.** -/
theorem exists_declare_eq_ok_iff : (∃ s', s.declare c = .ok s') ↔
    c.Consistent ∧ ∀ known, s.known? c.name = some known → known = c := by
  simp only [declare_eq_ok_iff, exists_and_left]
  refine and_congr_right fun _ => ?_
  cases s.known? c.name with
  -- A free name takes any consistent declaration, a known one only the declaration that it has.
  | none => exact ⟨fun _ => nofun, fun _ => ⟨_, .inr ⟨rfl, rfl⟩⟩⟩
  | some known =>
    constructor
    · rintro ⟨_, ⟨hknown, -⟩ | ⟨⟨⟩, -⟩⟩ _ ⟨⟩
      exact Option.some.inj hknown
    · exact fun h => ⟨s, .inl ⟨congrArg some (h known rfl), rfl⟩⟩

/-- **What an accepted call adds** is its declaration, unless it has been there before. -/
theorem known?_of_declare (h : s.declare c = .ok s') {d : Declaration} :
    s'.known? name = some d ↔ s.known? name = some d ∨ d = c ∧ c.name = name := by
  obtain ⟨-, ⟨hknown, rfl⟩ | ⟨hfree, rfl⟩⟩ := declare_eq_ok_iff.1 h
  · -- Repeated: nothing has changed.
    refine ⟨.inl, ?_⟩
    rintro (hd | ⟨rfl, rfl⟩)
    · exact hd
    · exact hknown
  · rw [known?_add]
    by_cases hname : c.name = name
    · subst hname
      simp [hfree, eq_comm]
    · simp [hname]

/-- Declarations keep their entries. -/
theorem known?_mono (h : s.declare c = .ok s') {d : Declaration} (hd : s.known? name = some d) :
    s'.known? name = some d :=
  (known?_of_declare h).2 (.inl hd)

/-- An accepted call touches no other name. -/
theorem known?_of_ne (h : s.declare c = .ok s') (hname : name ≠ c.name) :
    s'.known? name = s.known? name := by
  refine Option.ext fun d => (known?_of_declare h).trans (or_iff_left ?_)
  rintro ⟨-, hc⟩
  exact hname hc.symm

theorem Declared.declare (hs : s.Declared) (h : s.declare c = .ok s') : s'.Declared := by
  cases c with
  | record d => exact hs.record h
  | group d => exact hs.group h

theorem Declared.consistent_record (hs : s.Declared) {name : TypeName} {d : RecordDecl}
    (h : s.record? name = some d) : d.Consistent :=
  RecordDecl.check_eq_ok_iff.1 (hs.checked.1 d (record?_eq_some h).1)

theorem Declared.consistent_group (hs : s.Declared) {name : GroupName} {d : GroupDecl}
    (h : s.group? name = some d) : d.Consistent :=
  GroupDecl.check_eq_ok_iff.1 (hs.checked.2 d (group?_eq_some h).1)

/-- Every entry of a schema is consistent. -/
theorem Declared.consistent (hs : s.Declared) (h : s.known? name = some c) : c.Consistent := by
  cases name with
  | record name =>
    obtain ⟨d, hd, rfl⟩ := Option.map_eq_some_iff.1 h
    exact hs.consistent_record hd
  | group name =>
    obtain ⟨d, hd, rfl⟩ := Option.map_eq_some_iff.1 h
    exact hs.consistent_group hd

/-! ### Calls some of which may be refused -/

theorem after_cons (s : Schema) (c : Declaration) (calls : List Declaration) :
    s.after (c :: calls) = (s.afterCall c).after calls := rfl

theorem after_append (s : Schema) (calls calls' : List Declaration) :
    s.after (calls ++ calls') = (s.after calls).after calls' := List.foldl_append

theorem afterCall_of_ok (h : s.declare c = .ok s') : s.afterCall c = s' := by
  unfold afterCall
  rw [h]

theorem afterCall_of_error {e : SchemaError} (h : s.declare c = .error e) : s.afterCall c = s := by
  unfold afterCall
  rw [h]

theorem Declared.afterCall (hs : s.Declared) (c : Declaration) : (s.afterCall c).Declared := by
  cases h : s.declare c with
  | ok s' => exact afterCall_of_ok h ▸ hs.declare h
  | error e => exact (afterCall_of_error h).symm ▸ hs

theorem Declared.after (hs : s.Declared) (calls : List Declaration) : (s.after calls).Declared := by
  induction calls generalizing s with
  | nil => exact hs
  | cons c calls ih => exact ih (hs.afterCall c)

/-- **What has been declared stays**, whatever is declared later and whatever of it is refused. -/
theorem known?_after {d : Declaration} (h : s.known? name = some d) (calls : List Declaration) :
    (s.after calls).known? name = some d := by
  induction calls generalizing s with
  | nil => exact h
  | cons c calls ih =>
    -- One call after another; none takes a declaration back.
    refine ih ?_
    cases hc : s.declare c with
    | ok s' => exact afterCall_of_ok hc ▸ known?_mono hc h
    | error e => exact (afterCall_of_error hc).symm ▸ h

/-! ### Calls all of which are accepted -/

theorem declareAll_cons_eq_ok_iff : s.declareAll (c :: calls) = .ok s' ↔
    ∃ s₁, s.declare c = .ok s₁ ∧ s₁.declareAll calls = .ok s' := by
  unfold declareAll
  rw [List.foldlM_cons]
  exact bind_eq_ok_iff

/-- Where nothing is refused, going on after a refusal makes no difference. -/
theorem after_eq_of_declareAll (h : s.declareAll calls = .ok s') : s.after calls = s' := by
  -- By induction on the calls, each of which is accepted.
  induction calls generalizing s with
  | nil =>
    cases h
    rfl
  | cons c calls ih =>
    obtain ⟨s₁, hc, hcalls⟩ := declareAll_cons_eq_ok_iff.1 h
    rw [after_cons, afterCall_of_ok hc]
    exact ih hcalls

/-- **The entries at the end** are those at the beginning and the declarations. -/
theorem known?_of_declareAll (h : s.declareAll calls = .ok s') {d : Declaration} :
    s'.known? name = some d ↔ s.known? name = some d ∨ d ∈ calls ∧ d.name = name := by
  induction calls generalizing s with
  | nil =>
    cases h
    simp
  | cons c calls ih =>
    obtain ⟨s₁, hc, hcalls⟩ := declareAll_cons_eq_ok_iff.1 h
    -- What the first call has made known is kept by the others.
    rw [ih hcalls, known?_of_declare hc, List.mem_cons, or_assoc, or_and_right]
    refine or_congr_right (or_congr_left (and_congr_right ?_))
    rintro rfl
    rfl

/-- **Whether all calls are accepted**: each has to be consistent, and to agree with all that is
declared under its name, before or in other calls. -/
theorem exists_declareAll_eq_ok_iff : (∃ s', s.declareAll calls = .ok s') ↔
    (∀ c ∈ calls, c.Consistent) ∧
    (∀ c ∈ calls, ∀ known, s.known? c.name = some known → known = c) ∧
    ∀ c ∈ calls, ∀ c' ∈ calls, c.name = c'.name → c = c' := by
  induction calls generalizing s with
  | nil => exact ⟨fun _ => ⟨nofun, nofun, nofun⟩, fun _ => ⟨s, rfl⟩⟩
  | cons c calls ih =>
    simp only [declareAll_cons_eq_ok_iff]
    constructor
    · rintro ⟨s', s₁, hc, hcalls⟩
      obtain ⟨hconsistent, hknown⟩ := exists_declare_eq_ok_iff.1 ⟨s₁, hc⟩
      obtain ⟨hall, hagree, hsame⟩ := ih.1 ⟨s', hcalls⟩
      -- After the first call, what it declares is what the others have to agree with.
      have hfirst : ∀ c' ∈ calls, c.name = c'.name → c = c' := fun c' hc' hname =>
        hagree c' hc' c ((known?_of_declare hc).2 (.inr ⟨rfl, hname⟩))
      refine ⟨List.forall_mem_cons.2 ⟨hconsistent, hall⟩, List.forall_mem_cons.2 ⟨hknown, ?_⟩, ?_⟩
      · exact fun c' hc' known h => hagree c' hc' known (known?_mono hc h)
      · refine List.forall_mem_cons.2 ⟨List.forall_mem_cons.2 ⟨fun _ => rfl, hfirst⟩, ?_⟩
        refine fun c₁ hc₁ => List.forall_mem_cons.2 ⟨fun hname => ?_, hsame c₁ hc₁⟩
        exact (hfirst c₁ hc₁ hname.symm).symm
    · rintro ⟨hconsistent, hknown, hsame⟩
      obtain ⟨s₁, hc⟩ := exists_declare_eq_ok_iff.2
        ⟨hconsistent c List.mem_cons_self, hknown c List.mem_cons_self⟩
      have hothers : ∀ c' ∈ calls, ∀ known, s₁.known? c'.name = some known → known = c' := by
        intro c' hc' known h
        obtain hbefore | ⟨rfl, hname⟩ := (known?_of_declare hc).1 h
        · exact hknown c' (.tail _ hc') known hbefore
        · exact hsame known List.mem_cons_self c' (.tail _ hc') hname
      obtain ⟨s', hcalls⟩ := ih.2 ⟨fun c' hc' => hconsistent c' (.tail _ hc'), hothers,
        fun c₁ hc₁ c₂ hc₂ => hsame c₁ (.tail _ hc₁) c₂ (.tail _ hc₂)⟩
      exact ⟨s', s₁, hc, hcalls⟩

/-- **The order of declarations makes no difference**, neither to whether they are accepted nor to
what comes of them. -/
theorem declareAll_perm (h : s.declareAll calls = .ok s') (hperm : calls.Perm calls') :
    ∃ s'', s.declareAll calls' = .ok s'' ∧ ∀ name, s''.known? name = s'.known? name := by
  obtain ⟨hconsistent, hknown, hsame⟩ := exists_declareAll_eq_ok_iff.1 ⟨s', h⟩
  -- The conditions of acceptance speak of the set of calls and not of their order.
  obtain ⟨s'', h'⟩ : ∃ s'', s.declareAll calls' = .ok s'' :=
    exists_declareAll_eq_ok_iff.2 ⟨fun c hc => hconsistent c (hperm.mem_iff.2 hc),
      fun c hc => hknown c (hperm.mem_iff.2 hc),
      fun c hc c' hc' => hsame c (hperm.mem_iff.2 hc) c' (hperm.mem_iff.2 hc')⟩
  refine ⟨s'', h', fun name => Option.ext fun d => ?_⟩
  rw [known?_of_declareAll h, known?_of_declareAll h', hperm.mem_iff]

/-! ### Calls on a new schema -/

/-- **What a schema accepts, changes and keeps**, after any calls on a new one, accepted or refused.
A declaration under a new name is accepted exactly if it is consistent, and one under a known name
exactly if it is the one that is known. An accepted call changes no entry but its own, no entry is
ever changed or lost, and a refused call leaves the schema as it was. Calls that are all accepted
are accepted in every order, and leave the same entries. -/
theorem after_calls (calls : List Declaration) :
    let s := ({} : Schema).after calls
    (∀ c, s.known? c.name = none → ((∃ s', s.declare c = .ok s') ↔ c.Consistent)) ∧
      (∀ c known, s.known? c.name = some known → ((∃ s', s.declare c = .ok s') ↔ c = known)) ∧
      (∀ c s', s.declare c = .ok s' → ({} : Schema).after (calls ++ [c]) = s' ∧
        s'.known? c.name = some c ∧ ∀ name, name ≠ c.name → s'.known? name = s.known? name) ∧
      (∀ name d, s.known? name = some d →
        ∀ more, (({} : Schema).after (calls ++ more)).known? name = some d) ∧
      (∀ c e, s.declare c = .error e → ({} : Schema).after (calls ++ [c]) = s) ∧
      ∀ s', ({} : Schema).declareAll calls = .ok s' → s = s' ∧
        ∀ calls', calls.Perm calls' → ∃ s'', ({} : Schema).declareAll calls' = .ok s'' ∧
          ∀ name, s''.known? name = s'.known? name := by
  intro s
  have hs : s.Declared := Declared.empty.after calls
  refine ⟨fun c hfree => ?_, fun c known hknown => ?_, fun c s' hc => ⟨?_, ?_, ?_⟩,
    fun name d hd more => ?_, fun c e hc => ?_, fun s' hcalls => ⟨?_, ?_⟩⟩
  · rw [exists_declare_eq_ok_iff, hfree]
    exact and_iff_left nofun
  · rw [exists_declare_eq_ok_iff, hknown]
    constructor
    · exact fun h => (h.2 known rfl).symm
    -- A known declaration was consistent when it was accepted.
    · rintro rfl
      exact ⟨hs.consistent hknown, fun _ h => (Option.some.inj h).symm⟩
  · rw [after_append]
    exact afterCall_of_ok hc
  · exact (known?_of_declare hc).2 (.inr ⟨rfl, rfl⟩)
  · exact fun name hname => known?_of_ne hc hname
  · rw [after_append]
    exact known?_after hd more
  · rw [after_append]
    exact afterCall_of_error hc
  · exact after_eq_of_declareAll hcalls
  · exact fun calls' hperm => declareAll_perm hcalls hperm

end Schema

/-! ### An example

Stamps have been extended by a field that is declared before the old one, and keys say that it comes
after it on the wire. -/

namespace Stamp

/-- The declaration of the record. -/
def decl : RecordDecl where
  name := "Stamp"
  fields := [{ name := "zone", type := .text, added := 1, order := some 7 },
    { name := "ticks", type := .list (.scalar .u64), order := some 3, varLength := true }]

/-- A group whose members have a given tag and a tag by position. -/
def group : GroupDecl where
  name := "Event"
  members := [{ type := "Stamp", tag := some 5 }, { type := "Pause" }]

theorem consistent_decl : decl.Consistent where
  names := by decide
  keys := ⟨.inl (by simp [decl]), by decide⟩
  versions := by
    rintro f g (⟨hf, hg, ⟨i, j, hi, hj, hlt⟩⟩ | ⟨hf, -, hsub⟩)
    · obtain rfl | rfl := by simpa [decl] using hf
      · obtain rfl | rfl := by simpa [decl] using hg
        · exact UInt32.le_refl _
        · -- The newer field has the larger key.
          cases hi
          cases hj
          exact absurd hlt (by decide)
      · exact UInt32.zero_le
    · have hmem := hsub.subset List.mem_cons_self
      obtain rfl | rfl := by simpa [decl] using hmem
      all_goals cases hf
  lengths := by simp [decl, TypeExpr.leafKind?, ScalarKind.isInteger]

theorem consistent_group : group.Consistent := ⟨nofun, by decide, by decide⟩

end Stamp

namespace Schema

/-- After stamps, events are accepted, and so are the same stamps, but no others; and events could
have been declared first. -/
theorem after_calls_stamp :
    let s := ({} : Schema).after [.record Stamp.decl]
    let both := ({} : Schema).after [.record Stamp.decl, .group Stamp.group]
    (∃ s', s.declare (.group Stamp.group) = .ok s' ∧ s' = both ∧
        s'.known? (.group "Event") = some (.group Stamp.group) ∧
        s'.known? (.record "Stamp") = some (.record Stamp.decl)) ∧
      (∃ s', s.declare (.record Stamp.decl) = .ok s') ∧
      (∃ e, s.declare (.record { Stamp.decl with fields := [] }) = .error e ∧
        ({} : Schema).after [.record Stamp.decl, .record { Stamp.decl with fields := [] }] = s) ∧
      ∃ s', ({} : Schema).declareAll [.group Stamp.group, .record Stamp.decl] = .ok s' ∧
        ∀ name, s'.known? name = both.known? name := by
  intro s both
  -- The first call, on a schema with nothing in it.
  obtain ⟨hnew, -, hadd, -⟩ := after_calls []
  obtain ⟨s₁, hstamp⟩ := (hnew (.record Stamp.decl) rfl).2 Stamp.consistent_decl
  obtain ⟨rfl, hentry, hothers⟩ := hadd _ _ hstamp
  -- The second call, and other calls in its place.
  obtain ⟨hnew, hknown, hadd, hkeep, hrefuse, -⟩ := after_calls [.record Stamp.decl]
  have hfree : s.known? (.group "Event") = none := hothers (.group "Event") nofun
  obtain ⟨s₂, hevent⟩ := (hnew (.group Stamp.group) hfree).2 Stamp.consistent_group
  obtain ⟨rfl, hgroup, -⟩ := hadd _ _ hevent
  refine ⟨⟨both, hevent, rfl, hgroup, hkeep _ _ hentry [.group Stamp.group]⟩,
    (hknown _ _ hentry).2 rfl, ?_, ?_⟩
  · cases hother : s.declare (.record { Stamp.decl with fields := [] }) with
    | ok s' =>
      have hsame := (hknown (.record { Stamp.decl with fields := [] }) _ hentry).1 ⟨s', hother⟩
      exact absurd hsame (by decide)
    | error e => exact ⟨e, rfl, hrefuse _ e hother⟩
  · have hall : ({} : Schema).declareAll [.record Stamp.decl, .group Stamp.group] = .ok both :=
      declareAll_cons_eq_ok_iff.2 ⟨s, hstamp, declareAll_cons_eq_ok_iff.2 ⟨both, hevent, rfl⟩⟩
    obtain ⟨-, -, -, -, -, hperm⟩ := after_calls [.record Stamp.decl, .group Stamp.group]
    exact (hperm both hall).2 _ (.swap _ _ _)

end Schema

end SchemaWire
