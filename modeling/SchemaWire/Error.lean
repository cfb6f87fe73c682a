import SchemaWire.Format
/-!
# What can go wrong

Three phases can fail, and each has its own type of causes: a schema that cannot be accepted or
resolved (`SchemaError`), a value that cannot be written (`EncodeError`), and bytes that cannot
be read back (`DecodeError`). A cause carries the facts; its wording is given in one place, by
the `message` function of its type. `bind_eq_ok_iff` takes a sequence of steps apart that went
well to its end.
-/

namespace SchemaWire

/-- A value could not be written. -/
inductive EncodeError where
  /-- The buffer has fewer bytes left than one piece of the encoding takes. -/
  | bufferOverflow (offset needed remaining : Nat)
  /-- Writing was to start past the end of the buffer. -/
  | offsetOutOfBounds (offset size : Nat)
  /-- A null stands where the layout has no place for one. -/
  | nullValue (expected : String)
  /-- A value has another shape than the layout. -/
  | typeMismatch (expected actual : String)
  /-- A record lacks a field that is written at the active version. -/
  | missingField (record : TypeName) (field : String)
  /-- A value is not an instance of any member of a subtype group. -/
  | unregisteredSubtype (group : GroupName) (runtimeType : String)
  /-- A length or a count is too large for its encoding. -/
  | lengthOverflow (length : Nat)
  /-- A version is beyond every version of the layout. -/
  | unknownVersion (version : Version)
  /-- A record has a field that its type does not declare at any version. -/
  | unknownField (record : TypeName) (field : String)
  | depthExceeded (limit : Nat)
  /-- A list of members without any bytes is too long. -/
  | listTooLong (count limit : Nat)
deriving DecidableEq, Repr

/-- Bytes could not be read back into a value. -/
inductive DecodeError where
  /-- The input has fewer bytes left than are needed. -/
  | truncated (offset needed remaining : Nat)
  /-- A tag names no member of the subtype group. -/
  | unknownTag (group : GroupName) (tag : UInt32)
  /-- A boolean is neither 0 nor 1. -/
  | invalidBool (byte : UInt8)
  /-- A character is not a Unicode scalar value. -/
  | invalidChar (codePoint : UInt32)
  /-- The marker of a nullable value is not one of those in use. -/
  | invalidPresence (byte : UInt8)
  | invalidUtf8
  /-- A varint does not fit the width it is read at. -/
  | varintOverflow (bits : Nat)
  /-- A signed integer does not fit its kind. -/
  | integerOverflow (kind : String)
  /-- A version header is newer than the layout. -/
  | unknownVersion (version : Version)
  /-- A value has another shape than the native type. -/
  | typeMismatch (expected actual : String)
  /-- A record lacks a field of the native type. -/
  | missingField (record : TypeName) (field : String)
  | depthExceeded (limit : Nat)
  /-- A list claims more members than the input can hold. -/
  | listTooLong (count limit : Nat)
deriving DecidableEq, Repr

/-- A schema was not accepted, or a type could not be resolved against it. -/
inductive SchemaError where
  /-- A type is referred to but not declared. -/
  | unresolvable (type referrer : String)
  | duplicateRecord (record : TypeName)
  | duplicateGroup (group : GroupName)
  | duplicateSubtype (group : GroupName) (type : TypeName)
  | duplicateTag (group : GroupName) (tag : UInt32)
  /-- A tag is too large for the tag encoding. -/
  | tagOverflow (group : GroupName) (tag : UInt32) (encoding : TagEncoding)
  | emptyGroup (group : GroupName)
  /-- The fields of a record do not go together. -/
  | inconsistentFields (record : TypeName) (reason : String)
deriving DecidableEq, Repr

/-- The lowercase hexadecimal digits of a number, without leading zeros. -/
def hexDigits (n : Nat) : String := String.ofList (Nat.toDigits 16 n)

def EncodeError.message : EncodeError → String
  | .bufferOverflow offset needed remaining =>
    s!"buffer overflow: {needed} bytes needed at offset {offset}, {remaining} remaining"
  | .offsetOutOfBounds offset size => s!"offset {offset} is past the end of a {size} byte buffer"
  | .nullValue expected => s!"null value where a non-nullable {expected} is required"
  | .typeMismatch expected actual => s!"type mismatch: expected {expected}, got {actual}"
  | .missingField record field => s!"record {record} has no value for field {field}"
  | .unregisteredSubtype group type => s!"type {type} is not registered in subtype group {group}"
  | .lengthOverflow length => s!"length {length} does not fit the length prefix"
  | .unknownVersion version => s!"version {version.toNat} is not known to this serializer"
  | .unknownField record field => s!"record {record} declares no field {field}"
  | .depthExceeded limit => s!"records nested deeper than {limit}"
  | .listTooLong count limit =>
    s!"list of {count} zero-width members exceeds the limit of {limit}"

def DecodeError.message : DecodeError → String
  | .truncated offset needed remaining =>
    s!"truncated input: {needed} bytes needed at offset {offset}, {remaining} remaining"
  | .unknownTag group tag => s!"discriminant {tag.toNat} is not registered in subtype group {group}"
  | .invalidBool byte => s!"invalid bool byte {byte.toNat}"
  | .invalidChar codePoint => "invalid char code point 0x" ++ hexDigits codePoint.toNat
  | .invalidPresence byte => s!"invalid presence marker {byte.toNat}"
  | .invalidUtf8 => "invalid UTF-8 in string"
  | .varintOverflow bits => s!"varint does not fit in {bits} bits"
  | .integerOverflow kind => s!"value does not fit in {kind}"
  | .unknownVersion version =>
    s!"version {version.toNat} is newer than any version known to this serializer"
  | .typeMismatch expected actual => s!"type mismatch: expected {expected}, got {actual}"
  | .missingField record field => s!"record {record} has no value for field {field}"
  | .depthExceeded limit => s!"records nested deeper than {limit}"
  | .listTooLong count limit =>
    s!"list count {count} exceeds the {limit} members the input can hold"

def SchemaError.message : SchemaError → String
  | .unresolvable type referrer =>
    s!"no serialization strategy for {type} (referenced from {referrer})"
  | .duplicateRecord record => s!"record {record} is already registered with a different descriptor"
  | .duplicateGroup group =>
    s!"subtype group {group} is already registered with different members"
  | .duplicateSubtype group type => s!"type {type} is registered twice in subtype group {group}"
  | .duplicateTag group tag =>
    s!"discriminant {tag.toNat} is assigned twice in subtype group {group}"
  | .tagOverflow group tag encoding =>
    s!"discriminant {tag.toNat} in subtype group {group} does not fit {encoding.name}"
  | .emptyGroup group => s!"subtype group {group} has no members"
  | .inconsistentFields record reason => s!"inconsistent fields in record {record}: {reason}"

/-! ### Success -/

/-- Two steps succeed together when each of them does. -/
theorem bind_eq_ok_iff {ε α β : Type} {x : Except ε α} {f : α → Except ε β} {b : β} :
    (x >>= f) = .ok b ↔ ∃ a, x = .ok a ∧ f a = .ok b := by
  cases x <;> simp [bind, Except.bind]

end SchemaWire
