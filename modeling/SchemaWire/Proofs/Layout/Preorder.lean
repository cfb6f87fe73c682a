import SchemaWire.Proofs.Layout.Nodes
/-!
# First spelled out, then referred to

In a resolved layout the first mention of a record, in pre-order, spells the record out, and every
later one refers to it. `Layout.Passes` says this of a list of nodes, together with the records that
are known in front of it and behind it, so that lists of nodes can be put one behind the other
(`Layout.Passes.append`). `Layout.SpelledFirst` says it of a whole layout.

Where it holds, no reference dangles (`Layout.Passes.firstDangling?_eq_none`), and a record that is
mentioned anywhere is found by name, in the only entry that there is for it
(`Layout.SpelledFirst.lookup_eq`).
-/

namespace SchemaWire

namespace Layout

variable {a b : Layout} {bs cs : List Layout} {name : TypeName}
  {known known' known'' : List TypeName}

/-- **Nodes in order.** Read from the front, where some records are known, the nodes spell out every
other record at its first mention and refer to it from then on. -/
inductive Passes : (known : List TypeName) → List Layout → (known' : List TypeName) → Prop
  | nil (known : List TypeName) : Passes known [] known
  | record {known known' : List TypeName} {name : TypeName} {fields : List (Field Layout)}
      {bs : List Layout} (h : name ∉ known) (hbs : Passes (name :: known) bs known') :
      Passes known (.record name fields :: bs) known'
  | reference {known known' : List TypeName} {name : TypeName} {bs : List Layout}
      (h : name ∈ known) (hbs : Passes known bs known') :
      Passes known (.reference name :: bs) known'
  | other {known known' : List TypeName} {b : Layout} {bs : List Layout}
      (h : b.recordName? = none) (hbs : Passes known bs known') : Passes known (b :: bs) known'

/-- **The first mention spells out, the others refer.** Of the nodes in a list that mention a
record, the first one spells it out, and all others refer to it. -/
def FirstSpells (name : TypeName) (bs : List Layout) : Prop :=
  ∃ before fields after, bs = before ++ record name fields :: after ∧
    (∀ c ∈ before, c.recordName? ≠ some name) ∧
    ∀ c ∈ after, c.recordName? = some name → c = reference name

/-- A node in front that does not mention the record changes nothing. -/
theorem FirstSpells.cons (hb : b.recordName? ≠ some name) (h : FirstSpells name bs) :
    FirstSpells name (b :: bs) := by
  obtain ⟨before, fields, after, rfl, hbefore, hafter⟩ := h
  exact ⟨b :: before, fields, after, rfl, List.forall_mem_cons.2 ⟨hb, hbefore⟩, hafter⟩

namespace Passes

theorem append (h : Passes known bs known') (h' : Passes known' cs known'') :
    Passes known (bs ++ cs) known'' := by
  induction h with
  | nil _ => exact h'
  | record h _ ih => exact .record h (ih h')
  | reference h _ ih => exact .reference h (ih h')
  | other h _ ih => exact .other h (ih h')

/-- Nothing is referred to before it is spelled out. -/
theorem firstDangling?_eq_none (h : Passes known bs known') : firstDangling? known bs = none := by
  -- The names that are known when a reference is reached are those opened before it.
  induction h with
  | nil _ => rfl
  | record _ _ ih => exact ih
  | reference h _ ih => rw [firstDangling?, if_pos h, ih]
  | @other _ _ b _ h _ ih =>
    cases b with
    | record _ _ | reference _ => cases h
    | primitive _ | text | nullable _ | list _ | subtypes _ _ => exact ih

/-- What is known is only referred to. -/
theorem eq_reference (h : Passes known bs known') (hname : name ∈ known) (hb : b ∈ bs)
    (hmention : b.recordName? = some name) : b = .reference name := by
  -- By induction on the walk: a known name is not opened again, so only references mention it.
  induction h with
  | nil _ => cases hb
  | record hnew _ ih =>
    rcases List.mem_cons.1 hb with rfl | hb
    · cases hmention
      exact absurd hname hnew
    · exact ih (List.mem_cons_of_mem _ hname) hb
  | reference _ _ ih =>
    rcases List.mem_cons.1 hb with rfl | hb
    · cases hmention
      rfl
    · exact ih hname hb
  | other hnone _ ih =>
    rcases List.mem_cons.1 hb with rfl | hb
    · cases hnone.symm.trans hmention
    · exact ih hname hb

/-- What is mentioned and not known is spelled out at its first mention. -/
theorem firstSpells (h : Passes known bs known') (hname : name ∉ known) (hb : b ∈ bs)
    (hmention : b.recordName? = some name) : FirstSpells name bs := by
  induction h with
  | nil _ => cases hb
  | @record _ _ n fields bs _ hbs ih =>
    by_cases hn : name = n
    -- The first mention either opens the name here or comes behind what is passed first.
    · subst hn
      refine ⟨[], fields, bs, rfl, List.forall_mem_nil _, fun c hc hmention => ?_⟩
      exact hbs.eq_reference List.mem_cons_self hc hmention
    · have hne : (Layout.record n fields).recordName? ≠ some name :=
        fun h => hn (Option.some.inj h).symm
      rcases List.mem_cons.1 hb with rfl | hb
      · exact absurd hmention hne
      · exact (ih (List.not_mem_cons_of_ne_of_not_mem hn hname) hb).cons hne
  | @reference _ _ n _ hn _ ih =>
    have hne : (Layout.reference n).recordName? ≠ some name := by
      rintro ⟨⟩
      exact hname hn
    rcases List.mem_cons.1 hb with rfl | hb
    · exact absurd hmention hne
    · exact (ih hname hb).cons hne
  | other hnone _ ih =>
    rcases List.mem_cons.1 hb with rfl | hb
    · cases hnone.symm.trans hmention
    · exact (ih hname hb).cons (by rw [hnone]; exact nofun)

end Passes

/-- **Every record is spelled out once, and first.** -/
def SpelledFirst (a : Layout) : Prop :=
  ∀ b ∈ a.nodes, ∀ name, b.recordName? = some name → FirstSpells name a.nodes

theorem Passes.spelledFirst (h : Passes [] a.nodes known) : a.SpelledFirst :=
  fun _ hb _ hmention => h.firstSpells List.not_mem_nil hb hmention

/-- **A record that is mentioned is found by name**, with the fields of the one node that spells it
out. -/
theorem SpelledFirst.lookup_eq (h : a.SpelledFirst) (hb : b ∈ a.nodes)
    (hmention : b.recordName? = some name) :
    ∃ fields, record name fields ∈ a.nodes ∧ a.records.lookup name = some fields ∧
      ∀ others, (name, others) ∈ a.records → others = fields := by
  -- One node spells the record out, and all others before and behind it are references.
  obtain ⟨before, fields, after, hnodes, hbefore, hafter⟩ := h b hb name hmention
  have hnode : record name fields ∈ a.nodes := by
    rw [hnodes]
    exact List.mem_append_right _ List.mem_cons_self
  have honly (others : List (Field Layout)) (hothers : (name, others) ∈ a.records) :
      others = fields := by
    have hmem := mem_records_iff.1 hothers
    rw [hnodes] at hmem
    rcases List.mem_append.1 hmem with hmem | hmem
    · exact absurd rfl (hbefore _ hmem)
    · rcases List.mem_cons.1 hmem with heq | hmem
      · exact (record.inj heq).2
      · cases hafter _ hmem rfl
  refine ⟨fields, hnode, ?_, honly⟩
  cases hlookup : a.records.lookup name with
  | none => simpa using List.lookup_eq_none_iff.1 hlookup _ (mem_records_iff.2 hnode)
  | some found => rw [honly found (mem_of_lookup_eq_some hlookup)]

end Layout

end SchemaWire
