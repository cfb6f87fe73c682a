import SchemaWire.Program.Family
/-!
# The cache of programs

Making the programs of a layout is done once for each layout, level and tag encoding
(`ProgramKey`); a `ProgramCache` keeps the result and hands it out again. The place of a program
in a cache (`ProgramHandle`) says which serializers share one: two of them do exactly when their
handles are equal, which needs the same cache, told apart by its number, and the same place in it.

A key gets its slot, and the attempt is counted, before it turns out whether programs can be made
for it. Where this breaks down the slot stays empty, and every further request for the key is one
more attempt.
-/

namespace SchemaWire

/-- What programs are kept by. Layouts are compared as trees. -/
structure ProgramKey where
  layout : Layout
  level : Level
  tagEncoding : TagEncoding
deriving DecidableEq

/-- The programs of a key, if they can be made. -/
def ProgramKey.compile (key : ProgramKey) : Option ProgramFamily :=
  ProgramFamily.compile key.layout key.level key.tagEncoding

/-- The place of a program in a cache. -/
structure ProgramHandle where
  cache : Nat
  slot : Nat
deriving DecidableEq, Repr

/-- The place for the programs of a key. -/
structure CacheSlot where
  key : ProgramKey
  /-- The programs, if making them has not broken down. -/
  programs? : Option ProgramFamily
  /-- Nothing else is ever kept than what the key asks for. -/
  compiled : programs? = key.compile

/-- The slot of a key once making its programs has been tried. -/
def CacheSlot.make (key : ProgramKey) : CacheSlot := ⟨key, key.compile, rfl⟩

/-- The programs made so far. -/
structure ProgramCache where
  /-- The number that tells this cache from others. -/
  number : Nat
  /-- The slots of the keys, in the order in which they were first asked for. -/
  slots : List CacheSlot := []
  /-- How many times making programs has been begun. -/
  generations : Nat := 0

namespace ProgramCache

/-- The number of keys asked for so far. -/
def size (c : ProgramCache) : Nat := c.slots.length

/-- The place and the programs of a key, if they have been made. -/
def find? (c : ProgramCache) (key : ProgramKey) : Option (ProgramHandle × ProgramFamily) := do
  let slot ← c.slots.findIdx? (·.key = key)
  let programs ← (← c.slots[slot]?).programs?
  return (⟨c.number, slot⟩, programs)

/-- The cache after an attempt to make the programs of a key. -/
def attempt (c : ProgramCache) (key : ProgramKey) : ProgramCache :=
  { c with
    slots := if c.slots.any (·.key = key) then c.slots else c.slots ++ [.make key]
    generations := c.generations + 1 }

/-- The place and the programs of a key, made now if there are none yet, and the cache afterwards.
There is no answer where making them breaks down. -/
def request (c : ProgramCache) (key : ProgramKey) :
    Option (ProgramHandle × ProgramFamily) × ProgramCache :=
  match c.find? key with
  | some found => (some found, c)
  | none => ((c.attempt key).find? key, c.attempt key)

end ProgramCache

end SchemaWire
