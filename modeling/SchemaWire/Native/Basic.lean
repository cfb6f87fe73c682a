import SchemaWire.Native.Conversion
import SchemaWire.Schema.Basic
/-!
# Native data

Native types are made of scalars, texts, options, lists, boxes and record types (`NativeType`).
Record types may refer to one another and to themselves, so they are numbered, and what the numbers
mean is said by all their declarations together (`NativeTypes`). `NativeData` is the data of a type,
so what a type reads and writes is typed by it.

* `NativeTypes.typeExpr` is the type under which data is serialized. A box is invisible in it.
* `NativeData.toValue` and `NativeTypes.ofValue` convert data to and from values. Inside an option
  a scalar is boxed, as the nullable around it expects, and the empty option takes the form of
  null that goes with it. The fields of a record are taken out of its value one by one.
-/

namespace SchemaWire

/-- A type of native data, where the record types are numbered up to `n`. -/
inductive NativeType (n : Nat) where
  | scalar (kind : ScalarKind)
  | text
  | optional (content : NativeType n)
  | list (member : NativeType n)
  /-- A value kept elsewhere. -/
  | boxed (content : NativeType n)
  | record (i : Fin n)
deriving DecidableEq, Repr

/-- The record type in a type, whatever stands around it. -/
def NativeType.record? {n : Nat} : NativeType n → Option (Fin n)
  | .scalar _ | .text => none
  | .optional content | .boxed content => content.record?
  | .list member => member.record?
  | .record i => some i

/-- A field of a native record type. -/
structure NativeField (n : Nat) where
  name : String
  type : NativeType n
  /-- The first version at which it is on the wire. -/
  added : Version := 0
  /-- Its place among the fields, if places are given. -/
  order : Option UInt32 := none
  /-- The integer in it has a variable length. -/
  varLength : Bool := false

/-- A native record type. -/
structure NativeRecord (n : Nat) where
  name : TypeName
  fields : List (NativeField n)
  /-- Before it declares anything, registration asks whether the name is known, and if it is, takes
  that for the whole of it. -/
  asksFirst : Bool := false
  nodup_names : (fields.map (·.name)).Nodup := by decide

/-- **The native record types** that there are. -/
structure NativeTypes where
  count : Nat
  record : Fin count → NativeRecord count
  eq_of_name_eq : ∀ i j, (record i).name = (record j).name → i = j
  /-- Registration comes to an end: types that do not ask first are numbered after those of their
  kind that they contain. So on every way from a type to itself there is one that asks. -/
  guarded : ∀ i, (record i).asksFirst = false → ∀ f ∈ (record i).fields, ∀ j,
    f.type.record? = some j → (record j).asksFirst = true ∨ j < i

/-- **Native data** of a type. A list is given by its length and its members. -/
inductive NativeData (Γ : NativeTypes) : NativeType Γ.count → Type
  | scalar {kind : ScalarKind} (x : kind.Carrier) : NativeData Γ (.scalar kind)
  | text (s : String) : NativeData Γ .text
  | none {content : NativeType Γ.count} : NativeData Γ (.optional content)
  | some {content : NativeType Γ.count} (x : NativeData Γ content) :
      NativeData Γ (.optional content)
  | list {member : NativeType Γ.count} {n : Nat} (xs : Fin n → NativeData Γ member) :
      NativeData Γ (.list member)
  | boxed {content : NativeType Γ.count} (x : NativeData Γ content) : NativeData Γ (.boxed content)
  | record {i : Fin Γ.count}
      (xs : (j : Fin (Γ.record i).fields.length) → NativeData Γ ((Γ.record i).fields.get j).type) :
      NativeData Γ (.record i)

namespace NativeTypes

variable (Γ : NativeTypes)

/-- The type under which data is serialized. -/
def typeExpr : NativeType Γ.count → TypeExpr
  | .scalar kind => .scalar kind
  | .text => .text
  | .optional content => .nullable (typeExpr content)
  | .list member => .list (typeExpr member)
  | .boxed content => typeExpr content
  | .record i => .record (Γ.record i).name

/-- The declaration of a field. -/
def fieldDecl (f : NativeField Γ.count) : FieldDecl where
  name := f.name
  type := Γ.typeExpr f.type
  added := f.added
  order := f.order
  varLength := f.varLength

/-- The declaration of a record type. -/
def decl (i : Fin Γ.count) : RecordDecl where
  name := (Γ.record i).name
  fields := (Γ.record i).fields.map Γ.fieldDecl

/-- The null of an option over a type. -/
def absent (content : NativeType Γ.count) : Value :=
  match Γ.typeExpr content with
  | .scalar _ | .wrapped _ => .wrapped none
  | _ => .null

end NativeTypes

namespace NativeData

variable {Γ : NativeTypes}

/-- The value of data. -/
def toValue : {t : NativeType Γ.count} → NativeData Γ t → Value
  | .scalar kind, .scalar x => .scalar ⟨kind, x⟩
  | _, .text s => .text s
  | .optional content, .none => Γ.absent content
  | _, .some x => x.toValue.boxed
  | _, .list xs => .list (List.ofFn fun j => (xs j).toValue)
  | _, .boxed x => x.toValue
  | .record i, .record xs =>
    .record (Γ.record i).name (FieldMap.ofList (List.ofFn fun j =>
      (((Γ.record i).fields.get j).name, (xs j).toValue)))

/-- The list of some data. -/
def ofList {member : NativeType Γ.count} (xs : List (NativeData Γ member)) :
    NativeData Γ (.list member) :=
  let ys := xs.toArray
  .list fun j : Fin ys.size => ys[j]

end NativeData

namespace NativeTypes

variable (Γ : NativeTypes)

mutual

/-- The data of a type in a value. -/
def ofValue : (t : NativeType Γ.count) → Value → Except DecodeError (NativeData Γ t)
  | .scalar kind, v => (Native.scalarOfValue kind v).map .scalar
  | .text, v => (Native.textOfValue v).map .text
  | .optional content, v =>
    if v.isNull then .ok .none else (ofValue content v).map .some
  | .list member, v =>
    match h : Native.membersOfValue v with
    | .error e => .error e
    | .ok vs =>
      have := Native.sizeOf_membersOfValue h
      (ofValues member vs).map .ofList
  | .boxed content, v => (ofValue content v).map .boxed
  | .record i, v =>
    match h : Native.recordOfValue (Γ.record i).name v with
    | .error e => .error e
    | .ok r =>
      have := Native.sizeOf_recordOfValue h
      (takeFields (Γ.record i).fields r).map .record
termination_by t v => (sizeOf v, sizeOf t)

/-- The data in each of some values. -/
def ofValues (t : NativeType Γ.count) : List Value → Except DecodeError (List (NativeData Γ t))
  | [] => .ok []
  | v :: vs => do
    let x ← ofValue t v
    return x :: (← ofValues t vs)
termination_by vs => (sizeOf vs, 0)

/-- The data of some fields, which are taken out of a record one by one. -/
def takeFields : (fields : List (NativeField Γ.count)) → Record →
    Except DecodeError ((j : Fin fields.length) → NativeData Γ (fields.get j).type)
  | [], _ => .ok fun j => j.elim0
  | f :: fields, r =>
    match h : r.take f.name with
    | .error e => .error e
    | .ok (v, rest) => do
      have := Record.sizeOf_take h
      let x ← ofValue f.type v
      let xs ← takeFields fields rest
      return fun j => Fin.cases x xs j
termination_by _ r => (sizeOf r.fields, 0)

end

/-- Takes a field out of a record and converts it. Returns the outcome and the record afterwards,
which has lost the field even where the conversion fails. -/
def takeField (t : NativeType Γ.count) (r : Record) (field : String) :
    Except DecodeError (NativeData Γ t) × Record :=
  match r.take field with
  | .ok (v, r) => (Γ.ofValue t v, r)
  | .error e => (.error e, r)

end NativeTypes

end SchemaWire
