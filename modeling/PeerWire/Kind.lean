/-!
# Kinds

The ten forms that a wire value can take. Errors name forms, never whole shapes or values.
-/

namespace PeerWire

inductive Kind where
  | u8 | u16 | u32 | u64 | bool | fixedBytes | string | list | optional | record
  deriving DecidableEq, Repr

def Kind.name : Kind → String
  | .u8 => "u8"
  | .u16 => "u16"
  | .u32 => "u32"
  | .u64 => "u64"
  | .bool => "bool"
  | .fixedBytes => "fixed bytes"
  | .string => "string"
  | .list => "list"
  | .optional => "optional"
  | .record => "record"

end PeerWire
