import SchemaWire.Program.Encoding
import SchemaWire.Program.Decoding
/-!
# Program families

What a layout puts on the wire changes only at the versions at which fields are added. A
`ProgramFamily` holds one program for each of these versions and one for version 0, and serves
every other version with the program of the greatest version not above it
(`ProgramFamily.programFor`).

Making the programs of a layout (`ProgramFamily.compile`) goes through the root and the fields of
all its records, looks up the records and measures the members of lists (`Program.compiles`). It
breaks down at a record that the layout does not spell out, and at a least size that does not fit a
word.
-/

namespace SchemaWire

namespace Program

mutual

/-- Whether a layout in a program can be made ready for use. What records hold is not looked at. -/
def compilesLayout (p : Program) : Layout → Bool
  | .primitive _ | .text => true
  | .nullable inner => p.compilesLayout inner
  | .list member => p.compilesLayout member && (p.wordSize member).fits
  | .record name _ | .reference name => (p.records.lookup name).isSome
  | .subtypes _ members => p.compilesMembers members

/-- Whether the members of a group can be made ready for use. -/
def compilesMembers (p : Program) : List (Member Layout) → Bool
  | [] => true
  | ⟨_, _, a⟩ :: members => p.compilesLayout a && p.compilesMembers members

end

/-- Whether a program can be made ready for use: its root, and the fields of all its records that
are on the wire. -/
def compiles (p : Program) : Bool :=
  p.compilesLayout p.root &&
    p.records.all fun r => (p.present r.1).all fun f => p.compilesLayout f.layout

end Program

/-- The programs of a layout, for every version at which it changes. -/
structure ProgramFamily where
  /-- The program of version 0. -/
  first : Program
  /-- The programs of the later versions, ascending. -/
  later : List Program

namespace ProgramFamily

/-- Fixes a layout at all its versions. -/
def ofLayout (layout : Layout) (level : Level) (tagEncoding : TagEncoding) : ProgramFamily :=
  let at_ (v : Version) := Program.ofLayout layout v level.format tagEncoding
  ⟨at_ 0, (layout.versions.filter (· ≠ 0)).map at_⟩

/-- The programs of a family, ascending. -/
def programs (c : ProgramFamily) : List Program := c.first :: c.later

/-- Fixes a layout at all its versions and makes the programs ready for use, if this can be done
with all of them. -/
def compile (layout : Layout) (level : Level) (tagEncoding : TagEncoding) :
    Option ProgramFamily :=
  let made := ofLayout layout level tagEncoding
  if made.programs.all Program.compiles then some made else none

/-- The versions that have a program, ascending. -/
def versions (c : ProgramFamily) : List Version := c.programs.map (·.version)

/-- The greatest version that has a program. -/
def maxVersion (c : ProgramFamily) : Version := (c.later.getLast?.getD c.first).version

/-- The program that applies at a version. -/
def programFor (c : ProgramFamily) (v : Version) : Program :=
  c.later.foldl (fun found p => if p.version ≤ v then p else found) c.first

end ProgramFamily

end SchemaWire
