import SchemaWire.Format
import SchemaWire.Text.Quoted
/-!
# Settings

The choices with which a serializer is built. None of them is written to the wire, except the
version, and that only under a version header.

Two of them can be given as texts from the surroundings (`Settings.ofEnvironment`): each text is
the integer of a level or of a tag encoding, with blank characters around it. Integers are read
by `readSmall`, which accepts decimal digits with one plus sign in front and numbers up to 255;
of an invalid character and a number that has become too large, the one that comes first in the
text is reported.
-/

namespace SchemaWire

/-- The choices with which a serializer is built. -/
structure Settings where
  /-- The wire level. -/
  level : Level := Level.standard
  /-- How tags are written. -/
  tagEncoding : TagEncoding := TagEncoding.standard
  /-- The version to encode at, where it is not the newest. -/
  encodeVersion : Option Version := none
  /-- The version to decode at, where it is not the newest. -/
  decodeVersion : Option Version := none
  /-- Every encoded value begins with its version. -/
  versionHeader : Bool := false
deriving DecidableEq, Repr

/-- Why a text is not a small integer. -/
inductive IntegerFault where
  | empty
  | invalidDigit
  | tooLarge
deriving DecidableEq, Repr

def IntegerFault.message : IntegerFault → String
  | .empty => "cannot parse integer from empty string"
  | .invalidDigit => "invalid digit found in string"
  | .tooLarge => "number too large to fit in target type"

/-- The number written by decimal digits, where `n` is written by the digits before them. -/
def readDigits : (n : Nat) → List Char → Except IntegerFault Nat
  | n, [] => .ok n
  | n, c :: cs =>
    if c.isDigit then
      let m := 10 * n + (c.toNat - '0'.toNat)
      if m < 256 then readDigits m cs else .error .tooLarge
    else .error .invalidDigit

/-- The integer, at most 255, that a text writes. -/
def readSmall : List Char → Except IntegerFault UInt8
  | [] => .error .empty
  | ['+'] => .error .invalidDigit
  | '+' :: cs => (readDigits 0 cs).map UInt8.ofNat
  | cs => (readDigits 0 cs).map UInt8.ofNat

/-- Why the surroundings do not give settings. -/
inductive SettingsError where
  /-- A text is not an integer. -/
  | notAnInteger (source text : String) (fault : IntegerFault)
  /-- An integer names no member. -/
  | unknownMember (e : UnknownMember)
deriving DecidableEq, Repr

def SettingsError.message : SettingsError → String
  | .notAnInteger source text fault =>
    source ++ "=" ++ Text.quote text ++ " is not an integer: " ++ fault.message
  | .unknownMember e => e.message

namespace Settings

def levelVariable : String := "SKILLET_COMPAT_LEVEL"

def tagEncodingVariable : String := "SKILLET_DISCRIMINANT_ENCODING"

/-- The member that the text of a variable names. -/
def readMember {α : Type} (ofInt? : UInt8 → Except UnknownMember α) (source text : String) :
    Except SettingsError α :=
  match readSmall (Text.trim text.toList) with
  | .error fault => .error (.notAnInteger source text fault)
  | .ok n => (ofInt? n).mapError .unknownMember

/-- The standard settings, with the level and the tag encoding that are given as texts. -/
def ofEnvironment (level tagEncoding : Option String) : Except SettingsError Settings := do
  let level ← match level with
    | some text => readMember Level.ofInt? levelVariable text
    | none => pure Level.standard
  let tagEncoding ← match tagEncoding with
    | some text => readMember TagEncoding.ofInt? tagEncodingVariable text
    | none => pure TagEncoding.standard
  return { level, tagEncoding }

end Settings

end SchemaWire
