import PeerWire.Primitive
import PeerWire.Value

/-!
# The codec of dynamic values

Writing and reading driven by a shape. A value that its shape does not allow fails at the first
node in wire order that differs: a node is checked in kind, then in size, before anything of it is
written, so what precedes it is on the wire and nothing of it is.
-/

namespace PeerWire

namespace Value

mutual
def encode : Value → Shape → Emission
  | u8 n, .u8 => .u8 n
  | u16 n, .u16 => .u16 n
  | u32 n, .u32 => .u32 n
  | u64 n, .u64 => .u64 n
  | bool b, .bool => .flag b
  | fixedBytes bytes, .fixedBytes size =>
    if bytes.length = size then .write bytes else .fail (.fixedSizeMismatch size bytes.length)
  | string text, .string => .text text
  | list items, .list element => .length items.length ++ encodeItems items element
  | optional none, .optional _ => .flag false
  | optional (some v), .optional inner => .flag true ++ v.encode inner
  | record values, .record name fields =>
    if values.length = fields.length then encodeFields values fields
    else .fail (.fieldCountMismatch name fields.length values.length)
  | v, s => .fail (.kindMismatch s.kind v.kind)
def encodeItems : List Value → Shape → Emission
  | [], _ => .done
  | v :: vs, s => v.encode s ++ encodeItems vs s
def encodeFields : List Value → List Field → Emission
  | v :: vs, f :: fs => v.encode f.shape ++ encodeFields vs fs
  | _, _ => .done
end

/-- Writes a record. The shape is checked before the value. -/
def marshal (v : Value) (s : Shape) : Except WireError Bytes :=
  if !s.isRecord then .error (.rootNotRecord s.kind)
  else if v.kind ≠ .record then .error (.rootNotRecord v.kind)
  else (v.encode s).toExcept

end Value

namespace Shape

mutual
def decode : Shape → Reader Value
  | u8 => return .u8 (← Reader.u8)
  | u16 => return .u16 (← Reader.u16)
  | u32 => return .u32 (← Reader.u32)
  | u64 => return .u64 (← Reader.u64)
  | bool => return .bool (← Reader.flag)
  | fixedBytes size => return .fixedBytes (← Reader.take size)
  | string => return .string (← Reader.text)
  | list element => return .list (← Reader.list element element.decode)
  | optional inner => do
    if ← Reader.flag then return .optional (some (← inner.decode))
    else return .optional none
  | record _ fields => return .record (← decodeFields fields)
def decodeFields : List Field → Reader (List Value)
  | [] => return []
  | ⟨_, _, s⟩ :: fields => return (← s.decode) :: (← decodeFields fields)
end

/-- Reads a record off the front of a buffer. -/
def unmarshal (s : Shape) (buffer : Bytes) : Report WireError (Value × Bytes) :=
  if s.isRecord then s.decode.front buffer else ⟨.error (.targetNotRecord s.kind), []⟩

end Shape

end PeerWire
