import SchemaWire.Program.Basic
/-!
# The least size of a member

A list count is checked against the input before any member is read: the bytes that are left
cannot hold more members than their number divided by the least size of one.

`Program.minSize` finds this size by adding up the present fields of records. Records are found by
name and may contain one another, so the search goes through the names with two aids.

* A record that contains itself with nothing in between, while it is being measured, counts as
  empty. No value of such a record exists, so any answer is sound for it.
* A record that has been measured is remembered (`SizeMemo`), also one that was measured inside
  another.

A record can only be opened once on the way down, so the search cannot go deeper than there are
names. It is written for sizes of any kind that can be added. `Program.minSize` adds up natural
numbers; a program is made with words of 64 bits (`Program.wordSize`), and it cannot be made if a sum
does not fit.
-/

namespace SchemaWire

/-- The sizes of the records measured so far. -/
abbrev SizeMemo (σ : Type) := List (TypeName × σ)

/-- A size that is added up in a word of 64 bits. -/
inductive WordSize where
  | fitting (n : Nat)
  /-- Some sum has not fitted. -/
  | overflow
deriving DecidableEq

namespace WordSize

/-- A number, if it fits. -/
def ofNat (n : Nat) : WordSize := if n < UInt64.size then .fitting n else .overflow

/-- A sum in which something does not fit does not fit either. -/
def add : WordSize → WordSize → WordSize
  | .fitting m, .fitting n => ofNat (m + n)
  | _, _ => .overflow

instance : NatCast WordSize := ⟨ofNat⟩

instance : Add WordSize := ⟨add⟩

/-- Whether there has always been room for the size. -/
def fits : WordSize → Bool
  | .fitting _ => true
  | .overflow => false

end WordSize

namespace Program

/-- The least size of a layout that is no record. -/
def plainSize (p : Program) : Layout → Nat
  | .primitive q => q.minSize p.format
  | .text | .list _ => if p.format.varintLengths then 1 else 4
  | .nullable _ => 1
  | .subtypes _ _ => if p.tagEncoding = .u16 then 2 else 1
  | .record _ _ | .reference _ => 0

section Search

variable {σ : Type} [NatCast σ] [Add σ]

/-- The least size of a layout, where `record` measures the records in it. -/
def layoutSize (p : Program) (record : TypeName → SizeMemo σ → σ × SizeMemo σ) (a : Layout)
    (memo : SizeMemo σ) : σ × SizeMemo σ :=
  match a with
  | .record name _ | .reference name => record name memo
  | a => (p.plainSize a, memo)

/-- The sum of the least sizes of fields. -/
def fieldsSize (p : Program) (record : TypeName → SizeMemo σ → σ × SizeMemo σ) :
    List (Field Layout) → SizeMemo σ → σ × SizeMemo σ
  | [], memo => ((0 : Nat), memo)
  | f :: fields, memo =>
    let first := p.layoutSize record f.layout memo
    let rest := p.fieldsSize record fields first.2
    (first.1 + rest.1, rest.2)

/-- The least size of a record. `opened` are the records being measured around it, and `fuel`
bounds how many more can be opened inside. -/
def recordSize (p : Program) (fuel : Nat) (opened : List TypeName) (name : TypeName)
    (memo : SizeMemo σ) : σ × SizeMemo σ :=
  match memo.lookup name with
  | some size => (size, memo)
  | none =>
    -- The provisional size of an open record is never remembered.
    if name ∈ opened then ((0 : Nat), memo)
    else
      match fuel with
      | 0 => ((0 : Nat), memo)
      | fuel + 1 =>
        let found := p.fieldsSize (p.recordSize fuel (name :: opened)) (p.present name) memo
        (found.1, (name, found.1) :: found.2)

/-- The least size of a layout, found with nothing measured before. -/
def foundSize (p : Program) (a : Layout) : σ :=
  (p.layoutSize (p.recordSize (p.records.length + 1) []) a []).1

end Search

/-- The fewest bytes that a value of the layout takes. -/
def minSize (p : Program) (a : Layout) : Nat := p.foundSize a

/-- The fewest bytes that a value of the layout takes, as they are added up in a word. -/
def wordSize (p : Program) (a : Layout) : WordSize := p.foundSize a

/-- How many members a list may have when they take no bytes at all, so that no number of bytes
bounds them. -/
def maxEmptyMembers : Nat := 0x10000

/-- How many members a list may have when the given number of bytes is left. -/
def countLimit (p : Program) (member : Layout) (remaining : Nat) : Nat :=
  let size := p.minSize member
  if size = 0 then maxEmptyMembers else remaining / size

end Program

end SchemaWire
