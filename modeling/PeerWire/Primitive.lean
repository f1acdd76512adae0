import PeerWire.Emission
import PeerWire.Reader
import PeerWire.Shape

/-!
# Primitive wire forms

The written form and the reader of numbers, flags, lengths, text and lists, on which both the
codec of declared types and that of dynamic values build. Every number, flag and length is one
write; text is its length and then its bytes.
-/

namespace PeerWire

namespace Emission

def u8 (n : UInt8) : Emission := write (BigEndian.encode 1 n.toNat)

def u16 (n : UInt16) : Emission := write (BigEndian.encode 2 n.toNat)

def u32 (n : UInt32) : Emission := write (BigEndian.encode 4 n.toNat)

def u64 (n : UInt64) : Emission := write (BigEndian.encode 8 n.toNat)

def flag (b : Bool) : Emission := write [if b then 1 else 0]

/-- A length in front of a string or list. It has to fit in 32 bits. -/
def length (n : Nat) : Emission :=
  if n < BigEndian.capacity 4 then write (BigEndian.encode 4 n) else fail (.lengthOverflow n)

def text (s : String) : Emission :=
  let bytes := Utf8.encode s
  length bytes.length ++ write bytes

/-- A list whose elements are written one by one. -/
def list (elements : List Emission) : Emission := length elements.length ++ concat elements

end Emission

namespace Reader

/-- A big-endian number of the given width. -/
def number (width : Nat) : Reader Nat := do return BigEndian.decode (← take width)

def u8 : Reader UInt8 := do return UInt8.ofNat (← number 1)

def u16 : Reader UInt16 := do return UInt16.ofNat (← number 2)

def u32 : Reader UInt32 := do return UInt32.ofNat (← number 4)

def u64 : Reader UInt64 := do return UInt64.ofNat (← number 8)

/-- Writers put 0 or 1. Any other byte is read as 1 and reported. -/
def flag : Reader Bool := do
  let byte ← u8
  if byte > 1 then report (.looseFlag byte)
  return byte != 0

def length : Reader Nat := do return (← u32).toNat

def text : Reader String := do
  let bytes ← take (← length)
  if let some defect := Utf8.defect? bytes then report (.repairedText defect)
  return Utf8.decodeLossy bytes

/-- A list whose elements have a shape and a reader of their own. -/
def list {α : Type} (shape : Shape) (element : Reader α) : Reader (List α) := do
  let count ← length
  let room ← ofExcept (shape.reserve count (← remaining))
  return (← collect element count (Array.mkEmpty room)).toList

end Reader

end PeerWire
