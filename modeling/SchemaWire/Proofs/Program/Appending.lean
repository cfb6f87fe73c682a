import SchemaWire.Proofs.Layout.Nodes
import SchemaWire.Proofs.Program.MinSize
/-!
# Versions that append

Between two versions of a layout some records get new fields. If none of those does that a record
leads to (`Layout.SettledBetween`), then the record itself has only grown at its end, and so have
its bytes.

Two programs that agree on some records and on all that these lead to (`Program.AgreesOn`) write the
values of the layouts that refer to no others by the same steps, as soon as one of them can write
them (`Program.AgreesOn.layoutScript_eq`). That there is a value is what it takes to compare the
bounds on lists: the least size of a member is searched for among all records of the layout, and
only where there is a member is it known what the search finds.

A record of which one program has more fields at the end than the other is then written by both as
the same bytes, up to the end of the shorter one (`Program.AgreesOn.exists_bytes_eq_append`).
-/

namespace SchemaWire

namespace Layout

/-- **The records that a layout hands over to**, at once or from inside of nullables, lists and
groups. The fields of these records are not looked into. -/
inductive RefersTo : Layout → TypeName → Prop
  | self {a : Layout} {name : TypeName} (h : a.recordName? = some name) : RefersTo a name
  | nullable {inner : Layout} {name : TypeName} (h : RefersTo inner name) :
      RefersTo (.nullable inner) name
  | list {member : Layout} {name : TypeName} (h : RefersTo member name) :
      RefersTo (.list member) name
  | member {group : GroupName} {members : List (Member Layout)} {m : Member Layout}
      {name : TypeName} (hm : m ∈ members) (h : RefersTo m.layout name) :
      RefersTo (.subtypes group members) name

/-- A record leads to another one at a version, if a field that it has by then refers to it. -/
def LeadsTo (a : Layout) (version : Version) (name other : TypeName) : Prop :=
  ∃ f ∈ a.fieldsOf name, f.added ≤ version ∧ f.layout.RefersTo other

/-- **What a record leads to stays as it is** between two versions: no record that it leads to at
the earlier one, directly or over others, gets a new field. The record itself may get one, unless it
leads back to itself. -/
def SettledBetween (a : Layout) (version later : Version) (name : TypeName) : Prop :=
  ∀ other, Relation.TransGen (a.LeadsTo version) name other →
    ∀ f ∈ a.fieldsOf other, ¬(version < f.added ∧ f.added ≤ later)

/-- Of fields that come in the order of their versions, those up to a later version are those up to
an earlier one and then those in between. -/
theorem filter_added_le_eq_append {fields : List (Field Layout)} {version later : Version}
    (hfields : fields.Pairwise fun f g => f.added ≤ g.added) (hversion : version ≤ later) :
    fields.filter (fun f => f.added ≤ later) =
      fields.filter (fun f => f.added ≤ version) ++
        fields.filter fun f => version < f.added ∧ f.added ≤ later := by
  -- The fields are sorted by version: those that both versions have come first.
  induction fields with
  | nil => rfl
  | cons f fields ih =>
    obtain ⟨hf, hfields⟩ := List.pairwise_cons.1 hfields
    by_cases hadded : f.added ≤ version
    · have hlater : f.added ≤ later := UInt32.le_trans hadded hversion
      have hnew : ¬(version < f.added ∧ f.added ≤ later) := fun h => UInt32.not_le.2 h.1 hadded
      rw [List.filter_cons_of_pos (by simpa using hlater),
        List.filter_cons_of_pos (by simpa using hadded),
        List.filter_cons_of_neg (by simpa using hnew), ih hfields, List.cons_append]
    · -- From here on all fields are newer than the earlier version.
      have hnewer : ∀ g ∈ f :: fields, version < g.added := by
        intro g hg
        obtain rfl | hg := List.mem_cons.1 hg
        · exact UInt32.not_le.1 hadded
        · exact UInt32.lt_of_lt_of_le (UInt32.not_le.1 hadded) (hf g hg)
      have hnone : (f :: fields).filter (fun g => decide (g.added ≤ version)) = [] := by
        rw [List.filter_eq_nil_iff]
        intro g hg
        simpa using hnewer g hg
      rw [hnone, List.nil_append]
      refine List.filter_congr fun g hg => ?_
      simp [hnewer g hg]

end Layout

namespace Program

variable {p q : Program} {known : TypeName → Prop} {a : Layout} {name : TypeName} {v : Value}
  {room : Nat}

/-- **Programs that agree on some records** and on everything that these lead to. -/
structure AgreesOn (p q : Program) (known : TypeName → Prop) : Prop where
  format : q.format = p.format
  tagEncoding : q.tagEncoding = p.tagEncoding
  fieldsOf : ∀ name, known name → q.fieldsOf name = p.fieldsOf name
  present : ∀ name, known name → q.present name = p.present name
  /-- A record that is known leads to none that is not. -/
  closed : ∀ name, known name → ∀ f ∈ p.present name, ∀ other, f.layout.RefersTo other → known other

namespace AgreesOn

theorem plainSize_eq (h : p.AgreesOn q known) (a : Layout) : q.plainSize a = p.plainSize a := by
  cases a <;> simp only [plainSize, h.format, h.tagEncoding]

/-- A layout has the same size in both programs. -/
theorem hasSize (h : p.AgreesOn q known) {k : Nat} (hk : p.HasSize a k)
    (ha : ∀ other, a.RefersTo other → known other) : q.HasSize a k := by
  -- By induction on the size: both programs lay the known records out alike, and what these refer
  -- to is known.
  induction hk with
  | @plain a hplain =>
    rw [← h.plainSize_eq a]
    exact .plain hplain
  | @record a name size hname _ ih =>
    have hknown : known name := ha name (.self hname)
    rw [← h.present name hknown]
    refine .record size hname fun f hf => ?_
    rw [h.present name hknown] at hf
    exact ih f hf (h.closed name hknown f hf)

/-- A list that one program can write is bounded alike in both. -/
theorem not_tooLong (h : p.AgreesOn q known) (ha : ∀ other, a.RefersTo other → known other)
    {vs : List Value} (hcount : ¬q.TooLong a vs.length)
    (hvs : ∀ x ∈ vs, (p.layoutScript (p.recordScript room) a x).Valid) :
    ¬p.TooLong a vs.length := by
  rintro ⟨hmany, hzero⟩
  -- There is a member, so both searches find the size that there is.
  obtain ⟨x, hx⟩ := List.exists_mem_of_length_pos (Nat.zero_lt_of_lt hmany)
  have hsize : q.minSize a = p.minSize a :=
    minSize_eq (h.hasSize (hasSize_minSize (hvs x hx)) ha)
  exact hcount ⟨hmany, hsize.trans hzero⟩

theorem memberScript?_eq (h : p.AgreesOn q known) {call call' : TypeName → Value → Script}
    {members : List (Member Layout)} {type : TypeName} {script : Script}
    (hmembers : ∀ m ∈ members, (q.layoutScript call' m.layout v).Valid →
      p.layoutScript call m.layout v = q.layoutScript call' m.layout v)
    (hscript : q.memberScript? call' members type v = some script) (hvalid : script.Valid) :
    p.memberScript? call members type v = some script := by
  -- The last member of the type writes, in both programs.
  induction members with
  | nil => cases hscript
  | cons m members ih =>
    obtain ⟨hm, hmembers⟩ := List.forall_mem_cons.1 hmembers
    rw [memberScript?] at hscript ⊢
    cases hlater : q.memberScript? call' members type v with
    | some script' =>
      rw [hlater] at hscript
      cases hscript
      rw [ih hmembers hlater]
    | none =>
      -- Whether a member is asked is a matter of types alone.
      have hnone : p.memberScript? call members type v = none :=
        memberScript?_eq_none_iff.2 (memberScript?_eq_none_iff.1 hlater)
      rw [hlater] at hscript
      rw [hnone]
      simp only at hscript ⊢
      split at hscript
      · next htype =>
        cases hscript
        rw [if_pos htype, hm (Script.valid_cons.1 hvalid).2, tagStep, tagStep, h.tagEncoding]
      · cases hscript

/-- **What one program can write is written by the same steps**, if this holds of records. -/
theorem layoutScript_eq_of (h : p.AgreesOn q known)
    (hrecord : ∀ name x, known name → (q.recordScript room name x).Valid →
      p.recordScript room name x = q.recordScript room name x)
    (ha : ∀ other, a.RefersTo other → known other)
    (hv : (q.layoutScript (q.recordScript room) a v).Valid) :
    p.layoutScript (p.recordScript room) a v = q.layoutScript (q.recordScript room) a v := by
  -- By induction on the layout, records being the hypothesis.
  induction a generalizing v with
  | primitive _ => rw [layoutScript, layoutScript, h.format]
  | text => rfl
  | nullable inner ih =>
    have hpacked : q.packed? inner = p.packed? inner := by
      unfold packed?
      rw [h.format]
    cases hp : p.packed? inner with
    | some wrapped =>
      rw [layoutScript_nullable_of_packed hp, layoutScript_nullable_of_packed (hpacked.trans hp)]
    | none =>
      by_cases hnull : v.isNull = true
      · rw [layoutScript_nullable_of_isNull hp hnull,
          layoutScript_nullable_of_isNull (hpacked.trans hp) hnull]
      · rw [layoutScript_nullable_of_not_isNull (hpacked.trans hp) hnull] at hv ⊢
        rw [layoutScript_nullable_of_not_isNull hp hnull,
          ih (fun other hother => ha other (.nullable hother)) (Script.valid_cons.1 hv).2]
  | list member ih =>
    have hknown : ∀ other, member.RefersTo other → known other := fun other hother =>
      ha other (.list hother)
    obtain ⟨vs, rfl, hcount, -, hvs⟩ := valid_list_iff.1 hv
    -- The members have the same scripts, so the list passes the limit of both programs.
    have heq : ∀ x ∈ vs, p.layoutScript (p.recordScript room) member x =
        q.layoutScript (q.recordScript room) member x := fun x hx => ih hknown (hvs x hx)
    have hcount' := h.not_tooLong hknown hcount fun x hx => heq x hx ▸ hvs x hx
    rw [layoutScript_list hcount, layoutScript_list hcount', List.flatMap_congr heq]
  | record name fields | reference name => exact hrecord name v (ha name (.self rfl)) hv
  | subtypes group members ih =>
    rw [layoutScript] at hv
    rw [layoutScript, layoutScript]
    split at hv
    · exact absurd hv Script.not_valid_fail
    · next type htype =>
      split at hv
      -- A group writes with one of its members, which is the same in both programs.
      · next script hscript =>
        have hmembers : ∀ m ∈ members, (q.layoutScript (q.recordScript room) m.layout v).Valid →
            p.layoutScript (p.recordScript room) m.layout v =
              q.layoutScript (q.recordScript room) m.layout v := fun m hm =>
          ih m hm fun other hother => ha other (.member hm hother)
        simp only [h.memberScript?_eq hmembers hscript hv]
      · exact absurd hv Script.not_valid_fail

/-- **Records that are known are written by the same steps**, by induction on how many may be nested
in them. -/
theorem recordScript_eq (h : p.AgreesOn q known) (hname : known name)
    (hv : (q.recordScript room name v).Valid) :
    p.recordScript room name v = q.recordScript room name v := by
  -- By induction on the room. A valid record holds every field on the wire, and each is written
  -- alike.
  induction room generalizing name v with
  | zero => rfl
  | succ room ih =>
    obtain ⟨fields, rfl, hdeclared, hfields⟩ :=
      valid_bodyScript_iff.1 (valid_recordScript_succ_iff.1 hv)
    have hdeclared' := hdeclared
    rw [h.fieldsOf name hname] at hdeclared'
    rw [recordScript, recordScript, bodyScript_record hdeclared, bodyScript_record hdeclared',
      h.present name hname]
    congr 2
    refine List.flatMap_congr fun f hf => ?_
    obtain ⟨x, hx, hvalid⟩ := hfields f (h.present name hname ▸ hf)
    simp only [hx]
    exact h.layoutScript_eq_of (fun _ _ => ih) (h.closed name hname f hf) hvalid

theorem layoutScript_eq (h : p.AgreesOn q known) (ha : ∀ other, a.RefersTo other → known other)
    (hv : (q.layoutScript (q.recordScript room) a v).Valid) :
    p.layoutScript (p.recordScript room) a v = q.layoutScript (q.recordScript room) a v :=
  h.layoutScript_eq_of (fun _ _ hname => h.recordScript_eq hname) ha hv

/-- **A record that has grown at its end.** If its other fields refer to records on which the
programs agree, then what the larger program writes begins with what the smaller one writes. -/
theorem exists_bytes_eq_append (h : p.AgreesOn q known) {more : List (Field Layout)}
    (hfieldsOf : q.fieldsOf name = p.fieldsOf name)
    (hpresent : q.present name = p.present name ++ more)
    (hknown : ∀ f ∈ p.present name, ∀ other, f.layout.RefersTo other → known other)
    (ha : a.recordName? = some name) (hv : (q.layoutScript (q.recordScript room) a v).Valid)
    (format : WireFormat) :
    (p.layoutScript (p.recordScript room) a v).Valid ∧
      ∃ bytes, (q.layoutScript (q.recordScript room) a v).bytes format =
        (p.layoutScript (p.recordScript room) a v).bytes format ++ bytes := by
  obtain ⟨inner, fields, rfl, rfl, hdeclared, hfields⟩ := exists_of_valid_record ha hv
  have hdeclared' := hdeclared
  rw [hfieldsOf] at hdeclared'
  -- The fields that both programs write refer to known records only, so their scripts agree.
  have hfields' : ∀ f ∈ p.present name, ∃ x, fields.find? f.name = some x ∧
      (p.layoutScript (p.recordScript inner) f.layout x).Valid ∧
      p.layoutScript (p.recordScript inner) f.layout x =
        q.layoutScript (q.recordScript inner) f.layout x := by
    intro f hf
    obtain ⟨x, hx, hvalid⟩ := hfields f (hpresent ▸ List.mem_append_left more hf)
    have heq := h.layoutScript_eq (hknown f hf) hvalid
    exact ⟨x, hx, heq ▸ hvalid, heq⟩
  constructor
  · rw [layoutScript_of_recordName? ha, valid_recordScript_succ_iff, valid_bodyScript_iff]
    exact ⟨fields, rfl, hdeclared', fun f hf => (hfields' f hf).imp fun _ hx => ⟨hx.1, hx.2.1⟩⟩
  · -- The later program writes the same fields first; what it adds comes behind them.
    rw [bytes_record ha hdeclared fun f hf => (hfields f hf).imp fun _ hx => hx.1, hpresent,
      List.flatMap_append,
      bytes_record ha hdeclared' fun f hf => (hfields' f hf).imp fun _ hx => hx.1]
    refine ⟨_, congrArg (· ++ _) (List.flatMap_congr fun f hf => ?_)⟩
    obtain ⟨x, hx, -, heq⟩ := hfields' f hf
    rw [hx, Option.getD_some, heq]

end AgreesOn

end Program

end SchemaWire
