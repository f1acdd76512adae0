import PeerWire.Bytes
import PeerWire.Cursor
import PeerWire.Derive.Meaning
import PeerWire.Derive.Printer
import PeerWire.Peer.Boundary
import PeerWire.Ty.Image
import PeerWire.Proofs.Grammar
import PeerWire.Proofs.Acceptance
import PeerWire.Proofs.Text
import PeerWire.Proofs.Writing
import PeerWire.Proofs.RoundTrip
import PeerWire.Proofs.Images
import PeerWire.Proofs.Incremental
import PeerWire.Proofs.Prefixes
import PeerWire.Proofs.Canonical
import PeerWire.Proofs.Unique
import PeerWire.Proofs.Conformance
import PeerWire.Proofs.ElementCount
import PeerWire.Proofs.Envelope
import PeerWire.Proofs.Derived
import PeerWire.Proofs.Restored
import PeerWire.Proofs.Delivery
import PeerWire.Proofs.Stream
import PeerWire.Proofs.Cursors
import PeerWire.Proofs.Boundary
import PeerWire.Proofs.Selection
import PeerWire.Proofs.Sizes
import PeerWire.Proofs.Limits
import PeerWire.Proofs.ByteLists
import PeerWire.Proofs.Framing
import PeerWire.Derive.Generated
import PeerWire.Proofs.Listed
import PeerWire.Proofs.Generated
import PeerWire.Proofs.Lookup
import PeerWire.Proofs.Refill
import PeerWire.Proofs.Layers
import PeerWire.Proofs.Defects
import PeerWire.Proofs.Room
