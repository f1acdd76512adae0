import PeerWire.Kind

/-!
# Wire errors

Why a value could not be written or read. Reading a buffer fails only for want of bytes; all other
causes come from the caller: a shape where a record is needed, a value that its shape does not
allow, a length that no prefix can hold, or a buffer longer than its value.
-/

namespace PeerWire

inductive WireError where
  /-- A read, or a write with a limit, wants more bytes than are left. -/
  | insufficientBytes (needed remaining : Nat)
  /-- A record is to be read under a shape that is no record. -/
  | targetNotRecord (found : Kind)
  /-- A record is to be written, and the shape or the value is no record. -/
  | rootNotRecord (found : Kind)
  | kindMismatch (declared found : Kind)
  | fixedSizeMismatch (expected found : Nat)
  | fieldCountMismatch (record : String) (expected found : Nat)
  /-- A string or list is too long for its 32-bit length. -/
  | lengthOverflow (length : Nat)
  /-- Bytes follow the value in a buffer that should hold it alone. -/
  | extraInput (count : Nat)
  deriving DecidableEq, Repr

def WireError.message : WireError → String
  | .insufficientBytes needed remaining =>
    s!"insufficient bytes (needed {needed}, remaining {remaining})"
  | .targetNotRecord found => s!"invalid unmarshal target (expected record, found {found.name})"
  | .rootNotRecord found => s!"root value is not a struct (found {found.name})"
  | .kindMismatch declared found =>
    s!"unsupported type (declared {declared.name}, found {found.name})"
  | .fixedSizeMismatch expected found =>
    s!"fixed bytes size mismatch (expected {expected}, found {found})"
  | .fieldCountMismatch record expected found =>
    s!"field count mismatch for {record} (expected {expected}, found {found})"
  | .lengthOverflow length => s!"length {length} overflows u32 prefix"
  | .extraInput count => s!"extra unnecessary input leftover ({count} bytes)"

end PeerWire
