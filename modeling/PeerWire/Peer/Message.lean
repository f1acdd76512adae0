import PeerWire.Peer.Payload

/-!
# Messages

The envelope that every peer message travels in: a tag, an optional request id, and a payload that
stays in bytes until the tag is known. `enclose` and `extract` put any record into an envelope and
take it out again; `ofPayload` and `parse` do so for the one record that belongs to a message type,
and `parse` looks at the tag before it looks at the bytes.
-/

namespace PeerWire

structure Message where
  tag : UInt8
  id? : Option UInt16
  data : Bytes
  deriving DecidableEq, Repr

namespace Message

@[reducible] def decl : Decl :=
  ⟨.selection, "Message",
    [.named "msg_type" .u8, .named "id" (.option .u16), .named "data" (.list .u8)]⟩

instance : Record Message where
  decl := decl
  toRow m := (m.tag, m.id?, m.data, ())
  ofRow := fun (tag, id?, data, ()) => ⟨tag, id?, data⟩
  ofRow_toRow _ := rfl
  toRow_ofRow _ := rfl

/-- What the tag means. -/
def type (m : Message) : Except PeerError MessageType := MessageType.ofTag m.tag

/-! ## Payloads -/

def enclose (t : MessageType) (id? : Option UInt16) (d : Decl) (v : d.Val) :
    Except PeerError Message :=
  match d.marshal v with
  | .ok data => .ok ⟨t.tag, id?, data⟩
  | .error e => .error (.codec e)

/-- Reads the payload as some record, whatever the tag says. The record has to fill it. -/
def extract [Defaults] (m : Message) (d : Decl) : Report PeerError d.Val :=
  (d.ty.decode.exactly m.data).mapError .codec

def ofPayload {t : MessageType} (id? : Option UInt16) (payload : t.Payload) :
    Except PeerError Message :=
  enclose t id? (Record.decl t.Payload) (Record.toRow payload)

def parse [Defaults] (t : MessageType) (m : Message) : Report PeerError t.Payload :=
  if m.tag = t.tag then (m.extract (Record.decl t.Payload)).map Record.ofRow
  else ⟨.error (.unexpectedMessageType t m.tag), []⟩

/-! ## Envelopes -/

def toBytes (m : Message) : Except PeerError Bytes :=
  (decl.marshal (Record.toRow m)).mapError .codec

/-- Opens an envelope at the front of a buffer and hands back the bytes after it. -/
def ofFront [Defaults] (buffer : Bytes) : Report PeerError (Message × Bytes) :=
  ((decl.unmarshal buffer).map fun (row, rest) => (Record.ofRow row, rest)).mapError .codec

/-- Opens an envelope that fills its buffer, and reports what it found. -/
def ofBytes [Defaults] (buffer : Bytes) : Report PeerError Message :=
  let opened := ((decl.ty.decode.exactly buffer).map Record.ofRow).mapError PeerError.codec
  match opened.result with
  | .ok m => { opened with events := opened.events ++ [.messageDecoded m.tag m.id? m.data.length] }
  | .error _ => opened

end Message

end PeerWire
