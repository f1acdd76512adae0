import PeerWire.Peer.Error
import PeerWire.Record

/-!
# Payloads

The records that peers send each other, and which of them each type of message carries. The laws of
each `Record` instance say that the Lean structure and the row of its declaration are one.
-/

namespace PeerWire

/-- A feature that a peer announces, by number. -/
structure Capability where
  id : UInt16
  value : String
  deriving DecidableEq, Repr

@[reducible] def Capability.decl : Decl :=
  ⟨.selection, "Capability", [.named "id" .u16, .named "value" .string]⟩

instance : Record Capability where
  decl := Capability.decl
  toRow c := (c.id, c.value, ())
  ofRow := fun (id, value, ()) => ⟨id, value⟩
  ofRow_toRow _ := rfl
  toRow_ofRow _ := rfl

/-- The first message on a connection, in both directions. -/
structure Handshake where
  networkId : String
  protocolVersion : String
  softwareVersion : String
  serverPort : UInt16
  nodeType : UInt8
  capabilities : List Capability
  deriving DecidableEq, Repr

@[reducible] def Handshake.decl : Decl :=
  ⟨.selection, "Handshake",
    [.named "network_id" .string, .named "protocol_version" .string,
      .named "software_version" .string, .named "server_port" .u16, .named "node_type" .u8,
      .named "capabilities" (.list Capability.decl.ty)]⟩

instance : Record Handshake where
  decl := Handshake.decl
  toRow h :=
    (h.networkId, h.protocolVersion, h.softwareVersion, h.serverPort, h.nodeType,
      Record.toRows h.capabilities, ())
  ofRow := fun (network, protocol, software, port, node, capabilities, ()) =>
    ⟨network, protocol, software, port, node, Record.ofRows capabilities⟩
  ofRow_toRow h := by simp
  toRow_ofRow := fun (_, _, _, _, _, _, ()) => by simp

/-- What the node type of a handshake means. -/
def Handshake.node (h : Handshake) : Except PeerError NodeType := NodeType.ofTag h.nodeType

/-- Asks for the peers that the other side knows. -/
structure RequestPeers where
  deriving DecidableEq, Repr

@[reducible] def RequestPeers.decl : Decl := ⟨.selection, "RequestPeers", []⟩

instance : Record RequestPeers where
  decl := RequestPeers.decl
  toRow _ := ()
  ofRow _ := ⟨⟩
  ofRow_toRow _ := rfl
  toRow_ofRow _ := rfl

/-- The address of a peer and the time at which it was last seen. -/
structure TimestampedPeerInfo where
  host : String
  port : UInt16
  timestamp : UInt64
  deriving DecidableEq, Repr

@[reducible] def TimestampedPeerInfo.decl : Decl :=
  ⟨.selection, "TimestampedPeerInfo",
    [.named "host" .string, .named "port" .u16, .named "timestamp" .u64]⟩

instance : Record TimestampedPeerInfo where
  decl := TimestampedPeerInfo.decl
  toRow p := (p.host, p.port, p.timestamp, ())
  ofRow := fun (host, port, timestamp, ()) => ⟨host, port, timestamp⟩
  ofRow_toRow _ := rfl
  toRow_ofRow _ := rfl

/-- The answer to a request for peers. -/
structure RespondPeers where
  peerList : List TimestampedPeerInfo
  deriving DecidableEq, Repr

@[reducible] def RespondPeers.decl : Decl :=
  ⟨.selection, "RespondPeers", [.named "peer_list" (.list TimestampedPeerInfo.decl.ty)]⟩

instance : Record RespondPeers where
  decl := RespondPeers.decl
  toRow r := (Record.toRows r.peerList, ())
  ofRow := fun (peers, ()) => ⟨Record.ofRows peers⟩
  ofRow_toRow r := by simp
  toRow_ofRow := fun (_, ()) => by simp

/-- What a message of each type carries. -/
@[reducible] def MessageType.Payload : MessageType → Type
  | .handshake => Handshake
  | .requestPeers => RequestPeers
  | .respondPeers => RespondPeers

instance : (t : MessageType) → Record t.Payload
  | .handshake => inferInstanceAs (Record Handshake)
  | .requestPeers => inferInstanceAs (Record RequestPeers)
  | .respondPeers => inferInstanceAs (Record RespondPeers)

end PeerWire
