import PeerWire.Error
import PeerWire.Peer.Tag

/-!
# Peer errors

Why a peer message could not be made, opened or understood.
-/

namespace PeerWire

inductive PeerError where
  | unknownMessageType (tag : UInt8)
  | unknownNodeType (tag : UInt8)
  /-- A payload is asked for that the message does not carry. -/
  | unexpectedMessageType (expected : MessageType) (found : UInt8)
  | codec (e : WireError)
  deriving DecidableEq, Repr

def PeerError.message : PeerError → String
  | .unknownMessageType tag => s!"unknown message type (ty {tag.toNat})"
  | .unknownNodeType tag => s!"unknown node type ({tag.toNat})"
  | .unexpectedMessageType expected found =>
    s!"unexpected message type (expected {expected.name}, found {found.toNat})"
  | .codec e => s!"codec: {e.message}"

def MessageType.ofTag (tag : UInt8) : Except PeerError MessageType :=
  match ofTag? tag with
  | some t => .ok t
  | none => .error (.unknownMessageType tag)

def NodeType.ofTag (tag : UInt8) : Except PeerError NodeType :=
  match ofTag? tag with
  | some t => .ok t
  | none => .error (.unknownNodeType tag)

end PeerWire
