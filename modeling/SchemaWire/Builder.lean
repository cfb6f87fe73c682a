import SchemaWire.Schema.Resolution
import SchemaWire.Serializer
/-!
# Building serializers

A `Builder` collects declarations and settings. `Builder.build` resolves a root type against the
declarations and gets the program of its layout from a cache; where the type cannot be resolved,
the cache is not asked.

So a build may end in three ways (`BuildResult`): with a serializer, with an error that says what is
wrong with the declarations, or, where the programs of the layout cannot be made, in a panic.
-/

namespace SchemaWire

/-- How building something ends. -/
inductive BuildResult (α : Type) where
  | ok (a : α)
  /-- The declarations are at fault. -/
  | error (e : SchemaError)
  /-- The programs could not be made. -/
  | panic
deriving DecidableEq

/-- A part of what has been built. -/
def BuildResult.map {α β : Type} (f : α → β) : BuildResult α → BuildResult β
  | .ok a => .ok (f a)
  | .error e => .error e
  | .panic => .panic

/-- Declarations and settings from which a serializer is built. -/
structure Builder where
  schema : Schema := {}
  settings : Settings := {}

namespace Builder

def declareRecord (b : Builder) (d : RecordDecl) : Except SchemaError Builder := do
  return { b with schema := ← b.schema.declareRecord d }

def declareGroup (b : Builder) (d : GroupDecl) : Except SchemaError Builder := do
  return { b with schema := ← b.schema.declareGroup d }

def isRegistered (b : Builder) (name : TypeName) : Bool := (b.schema.record? name).isSome

def isGroupRegistered (b : Builder) (name : GroupName) : Bool := (b.schema.group? name).isSome

def withSettings (b : Builder) (settings : Settings) : Builder := { b with settings }

def withLevel (b : Builder) (level : Level) : Builder :=
  { b with settings := { b.settings with level } }

def withTagEncoding (b : Builder) (tagEncoding : TagEncoding) : Builder :=
  { b with settings := { b.settings with tagEncoding } }

def withEncodeVersion (b : Builder) (version : Version) : Builder :=
  { b with settings := { b.settings with encodeVersion := some version } }

def withDecodeVersion (b : Builder) (version : Version) : Builder :=
  { b with settings := { b.settings with decodeVersion := some version } }

def withVersionHeader (b : Builder) (versionHeader : Bool) : Builder :=
  { b with settings := { b.settings with versionHeader } }

/-- Builds the serializer of a root type, with its program from a cache. Returns the cache as it is
afterwards, however the build ends. -/
def build (b : Builder) (root : TypeExpr) (cache : ProgramCache) :
    BuildResult Serializer × ProgramCache :=
  match b.schema.layout b.settings.tagEncoding root with
  | .error e => (.error e, cache)
  | .ok layout =>
    match cache.request ⟨layout, b.settings.level, b.settings.tagEncoding⟩ with
    | (some compiled, cache) => (.ok (.ofLayout layout compiled b.settings), cache)
    | (none, cache) => (.panic, cache)

end Builder

end SchemaWire
