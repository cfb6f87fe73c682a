import SchemaWire.Schema.Declaration
/-!
# Schemas

A `Schema` is a set of declarations, at most one for each record name and one for each group
name. A declaration is taken in once it passes its own check and its name is free; declaring the
same thing again changes nothing, and declaring something else under a known name is refused. A
refused declaration leaves no trace, since the schema is a value.
-/

namespace SchemaWire

/-- The declarations that types are resolved against. -/
structure Schema where
  /-- The record types, in the order in which they were declared. -/
  records : List RecordDecl := []
  /-- The groups of subtypes, in the order in which they were declared. -/
  groups : List GroupDecl := []
deriving DecidableEq

namespace Schema

def record? (s : Schema) (name : TypeName) : Option RecordDecl :=
  s.records.find? (·.name = name)

def group? (s : Schema) (name : GroupName) : Option GroupDecl := s.groups.find? (·.name = name)

/-- Takes in the declaration of a record type. -/
def declareRecord (s : Schema) (d : RecordDecl) : Except SchemaError Schema := do
  d.check
  match s.record? d.name with
  | some known => if known = d then return s else throw (.duplicateRecord d.name)
  | none => return { s with records := s.records ++ [d] }

/-- Takes in the declaration of a group of subtypes. -/
def declareGroup (s : Schema) (d : GroupDecl) : Except SchemaError Schema := do
  d.check
  match s.group? d.name with
  | some known => if known = d then return s else throw (.duplicateGroup d.name)
  | none => return { s with groups := s.groups ++ [d] }

end Schema

end SchemaWire
