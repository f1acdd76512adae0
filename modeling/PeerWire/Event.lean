import PeerWire.Text.Utf8

/-!
# Events

What the library reports while it works. A reader reports each liberty that it takes with bytes no
writer produces (a flag byte above 1, text that is not UTF-8), so a silent reading means that the
bytes were canonical. Whoever opens a message envelope reports that too.
-/

namespace PeerWire

inductive Level where
  | trace | debug
  deriving DecidableEq, Repr

inductive Event where
  | looseFlag (byte : UInt8)
  | repairedText (defect : Utf8.Defect)
  | messageDecoded (tag : UInt8) (id? : Option UInt16) (length : Nat)
  deriving DecidableEq, Repr

namespace Event

def level : Event → Level
  | looseFlag _ => .trace
  | repairedText _ => .debug
  | messageDecoded _ _ _ => .debug

def message : Event → String
  | looseFlag _ => "noncanonical flag byte read as true"
  | repairedText _ => "invalid utf-8 in string, converting lossily"
  | messageDecoded _ _ _ => "decoded message"

/-- The particulars of an event, by name. -/
def details : Event → List (String × String)
  | looseFlag byte => [("byte", toString byte.toNat)]
  | repairedText defect => [("err", defect.message)]
  | messageDecoded tag id? length =>
    let id := match id? with
      | none => "None"
      | some n => s!"Some({n.toNat})"
    [("msg_type", toString tag.toNat), ("id", id), ("len", toString length)]

end Event

end PeerWire
