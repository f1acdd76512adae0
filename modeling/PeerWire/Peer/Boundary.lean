import PeerWire.Json.Library
import PeerWire.Peer.Message

/-!
# Peer records in JSON

Messages and all that they carry have derived forms, and so have tags, which go by the names of
their cases.
-/

namespace PeerWire

/-- The records that have derived forms. -/
inductive Decl.IsBoundary : Decl → Prop where
  | message : IsBoundary Message.decl
  | capability : IsBoundary Capability.decl
  | handshake : IsBoundary Handshake.decl
  | requestPeers : IsBoundary RequestPeers.decl
  | timestampedPeerInfo : IsBoundary TimestampedPeerInfo.decl
  | respondPeers : IsBoundary RespondPeers.decl

def MessageType.toJson (t : MessageType) : Json := .text t.name

def MessageType.ofJson? (j : Json) : Option MessageType := do MessageType.ofName? (← j.variant?)

def NodeType.toJson (t : NodeType) : Json := .text t.name

def NodeType.ofJson? (j : Json) : Option NodeType := do NodeType.ofName? (← j.variant?)

end PeerWire
