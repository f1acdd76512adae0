/-!
# Tags

One-byte tags that peers exchange: the type of a message, and the kind of node that a handshake
announces. Bytes that no tag uses are left to newer peers, so a tag on the wire is a plain byte
until someone asks what it means (`ofTag?`).
-/

namespace PeerWire

inductive MessageType where
  | handshake | requestPeers | respondPeers
  deriving DecidableEq, Repr

namespace MessageType

def all : List MessageType := [handshake, requestPeers, respondPeers]

def name : MessageType → String
  | handshake => "Handshake"
  | requestPeers => "RequestPeers"
  | respondPeers => "RespondPeers"

def tag : MessageType → UInt8
  | handshake => 1
  | requestPeers => 43
  | respondPeers => 44

def ofTag? (tag : UInt8) : Option MessageType := all.find? (·.tag == tag)

def ofName? (name : String) : Option MessageType := all.find? (·.name == name)

theorem ofTag?_tag (t : MessageType) : ofTag? t.tag = some t := by cases t <;> rfl

theorem tag_of_ofTag? {b : UInt8} {t : MessageType} (h : ofTag? b = some t) : t.tag = b := by
  simpa using List.find?_some h

end MessageType

inductive NodeType where
  | fullNode | harvester | farmer | timelord | introducer | wallet | dataLayer
  deriving DecidableEq, Repr

namespace NodeType

def all : List NodeType :=
  [fullNode, harvester, farmer, timelord, introducer, wallet, dataLayer]

def name : NodeType → String
  | fullNode => "FullNode"
  | harvester => "Harvester"
  | farmer => "Farmer"
  | timelord => "Timelord"
  | introducer => "Introducer"
  | wallet => "Wallet"
  | dataLayer => "DataLayer"

def tag : NodeType → UInt8
  | fullNode => 1
  | harvester => 2
  | farmer => 3
  | timelord => 4
  | introducer => 5
  | wallet => 6
  | dataLayer => 7

def ofTag? (tag : UInt8) : Option NodeType := all.find? (·.tag == tag)

def ofName? (name : String) : Option NodeType := all.find? (·.name == name)

theorem ofTag?_tag (t : NodeType) : ofTag? t.tag = some t := by cases t <;> rfl

theorem tag_of_ofTag? {b : UInt8} {t : NodeType} (h : ofTag? b = some t) : t.tag = b := by
  simpa using List.find?_some h

end NodeType

end PeerWire
