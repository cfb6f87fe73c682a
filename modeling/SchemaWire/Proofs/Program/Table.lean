import SchemaWire.Proofs.Layout.Preorder
import SchemaWire.Proofs.Program.MinSize
import SchemaWire.Proofs.Program.Mirror
/-!
# The table of records

In a **closed** program every record that is looked up has an entry (`Program.Closed`); the program
of a layout that spells every record out first is closed (`Program.closed_ofLayout`).

A closed program never misses: with more entries behind those of its table, which only a miss would
lead to, a program mirrors it (`Program.Closed.mirrors_withMore`), so it writes and reads the same
(`Program.Closed.script_withMore`, `Program.Closed.decode_withMore`).
-/

namespace SchemaWire

namespace Program

variable {p : Program} {more : List (TypeName × List (Field Layout))} {name : TypeName}
  {a : Layout}

/-- **Every record that is looked up has an entry**, and it is the one that is found. -/
def Closed (p : Program) : Prop :=
  ∀ name, p.LooksUp name → ∃ (i : Nat) (fields : List (Field Layout)),
    p.records[i]? = some (name, fields) ∧ p.records.lookup name = some fields

/-- **The program of a layout that spells its records out is closed**, at every version and in every
format. -/
theorem closed_ofLayout (h : a.SpelledFirst) (version : Version) (format : WireFormat)
    (tagEncoding : TagEncoding) : (ofLayout a version format tagEncoding).Closed := by
  intro name hname
  -- Whatever is looked up is mentioned somewhere in the layout.
  have hmention : ∃ b ∈ a.nodes, b.recordName? = some name := by
    induction hname with
    | @root b _ hb hmention => exact ⟨b, hb, hmention⟩
    | @field n _ fields f b _ hfields hf hb hmention _ =>
      have hrecord := Layout.mem_records_iff.1 (Layout.mem_of_lookup_eq_some hfields)
      have hlayout := Layout.mem_nodes_of_mem_parts hrecord (Layout.layout_mem_parts hf)
      exact ⟨b, Layout.nodes_trans hlayout hb, hmention⟩
  obtain ⟨b, hb, hmention⟩ := hmention
  obtain ⟨fields, -, hlookup, -⟩ := h.lookup_eq hb hmention
  obtain ⟨i, hi⟩ := List.getElem?_of_mem (Layout.mem_of_lookup_eq_some hlookup)
  exact ⟨i, fields, hi, hlookup⟩

/-! ### More entries -/

/-- A program with more entries behind those of its table. -/
def withMore (p : Program) (more : List (TypeName × List (Field Layout))) : Program :=
  { p with records := p.records ++ more }

theorem format_withMore (p : Program) (more : List (TypeName × List (Field Layout))) :
    (p.withMore more).format = p.format := rfl

theorem tagEncoding_withMore (p : Program) (more : List (TypeName × List (Field Layout))) :
    (p.withMore more).tagEncoding = p.tagEncoding := rfl

namespace Closed

theorem mem_table (hp : p.Closed) (hname : p.LooksUp name) : name ∈ p.records.map (·.1) := by
  obtain ⟨-, fields, -, hlookup⟩ := hp name hname
  exact List.mem_map.2 ⟨_, Layout.mem_of_lookup_eq_some hlookup, rfl⟩

theorem fieldsOf_withMore (hp : p.Closed) (hname : p.LooksUp name) :
    (p.withMore more).fieldsOf name = p.fieldsOf name := by
  obtain ⟨-, fields, -, hlookup⟩ := hp name hname
  have hlonger : (p.records ++ more).lookup name = some fields := by
    rw [List.lookup_append, hlookup, Option.some_or]
  rw [fieldsOf, fieldsOf, withMore, hlonger, hlookup]

theorem present_withMore (hp : p.Closed) (hname : p.LooksUp name) :
    (p.withMore more).present name = p.present name := by
  rw [present, hp.fieldsOf_withMore hname]
  rfl

theorem omitted_withMore (hp : p.Closed) (hname : p.LooksUp name) :
    (p.withMore more).omitted name = p.omitted name := by
  rw [omitted, hp.fieldsOf_withMore hname]
  rfl

/-- **A search in a closed program stays in the table**, and the number of its entries is fuel
enough. Each record that is opened has an entry and leaves one less to be opened. -/
theorem recordSize_withMore (hp : p.Closed) (hname : p.LooksUp name) (fuel fuel' : Nat)
    (opened : List TypeName) (hfuel : (p.unopened opened).length < fuel)
    (hfuel' : (p.unopened opened).length < fuel') :
    ((p.withMore more).recordSize fuel' opened name : SizeMemo Nat → Nat × SizeMemo Nat) =
      p.recordSize fuel opened name := by
  induction fuel generalizing fuel' opened name with
  | zero => cases hfuel
  | succ fuel ih =>
    obtain ⟨fuel', rfl⟩ : ∃ k, fuel' = k + 1 := ⟨fuel' - 1, by omega⟩
    funext memo
    rw [recordSize, recordSize, hp.present_withMore hname]
    cases memo.lookup name with
    | some size => rfl
    | none =>
      -- Each opened name leaves fewer unopened ones, so the fuel is enough on both sides.
      by_cases ho : name ∈ opened
      · simp only [if_pos ho]
      · have hless := length_unopened_lt (hp.mem_table hname) ho
        have hfields (f : Field Layout) (hf : f ∈ p.present name) (other : TypeName)
            (hother : f.layout.recordName? = some other) :
            ((p.withMore more).recordSize fuel' (name :: opened) other :
                SizeMemo Nat → Nat × SizeMemo Nat) =
              p.recordSize fuel (name :: opened) other :=
          ih ((hname.of_mem_present hf).self hother) fuel' _ (by omega) (by omega)
        have hsize := fieldsSize_congr (p.format_withMore more) (p.tagEncoding_withMore more)
          hfields memo
        simp only [if_neg ho, hsize]

theorem minSize_withMore (hp : p.Closed) (ha : p.LooksUpAll a) :
    (p.withMore more).minSize a = p.minSize a := by
  -- Both programs have names enough for the fuel.
  have htable : (p.unopened []).length ≤ p.records.length :=
    (List.length_filter_le _ _).trans (List.length_map _).le
  have hmore : (p.withMore more).records.length = p.records.length + more.length :=
    List.length_append
  refine congrArg Prod.fst (layoutSize_congr (p.format_withMore more)
    (p.tagEncoding_withMore more) (fun name hname => ?_) [])
  exact hp.recordSize_withMore (ha.self hname) _ _ [] (by omega) (by omega)

/-- **More entries are never found.** -/
theorem mirrors_withMore (hp : p.Closed) (more : List (TypeName × List (Field Layout))) :
    (p.withMore more).Mirrors p where
  root := rfl
  format := p.format_withMore more
  tagEncoding := p.tagEncoding_withMore more
  fieldsOf _ hname := hp.fieldsOf_withMore hname
  present _ hname := hp.present_withMore hname
  omitted _ hname := hp.omitted_withMore hname
  minSize _ ha := hp.minSize_withMore ha

theorem script_withMore (hp : p.Closed) (room : Nat) (v : Value) :
    (p.withMore more).script room v = p.script room v :=
  (hp.mirrors_withMore more).script_eq room v

theorem decode_withMore (hp : p.Closed) : (p.withMore more).decode = p.decode :=
  (hp.mirrors_withMore more).decode_eq

end Closed

end Program

end SchemaWire
