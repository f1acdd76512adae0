import PeerWire.Ty
import PeerWire.Value.Codec

/-!
# The codec of declared types

Writing and reading driven by a declared type, without the detour over dynamic values. A selection
reads its marked members first and then assembles the row, so a failure leaves no half-made record.
-/

namespace PeerWire

/-! ## Writing -/

mutual
def Ty.encode : (t : Ty) → t.Val → Emission
  | .u8, n => .u8 n
  | .u16, n => .u16 n
  | .u32, n => .u32 n
  | .u64, n => .u64 n
  | .bool, b => .flag b
  | .string, s => .text s
  | .array _, bytes => .write bytes.val
  | .list t, items => .list (items.map t.encode)
  | .option _, none => .flag false
  | .option t, some v => .flag true ++ t.encode v
  | .boxed t, v => t.encode v.content
  | .wrapper _ t, v => t.encode v.inner
  | .record .listing _ members, row => Row.encode members row
  | .record .selection _ members, row => Row.encodeMarked members row
def Row.encode : (members : List (Member Ty)) → Row members → Emission
  | [], _ => .done
  | ⟨_, t, _⟩ :: ms, (v, row) => t.encode v ++ Row.encode ms row
def Row.encodeMarked : (members : List (Member Ty)) → Row members → Emission
  | [], _ => .done
  | ⟨_, t, true⟩ :: ms, (v, row) => t.encode v ++ Row.encodeMarked ms row
  | ⟨_, _, false⟩ :: ms, (_, row) => Row.encodeMarked ms row
end

/-! ## Reading -/

section

variable [Defaults]

mutual
def Ty.decode : (t : Ty) → Reader t.Val
  | .u8 => Reader.u8
  | .u16 => Reader.u16
  | .u32 => Reader.u32
  | .u64 => Reader.u64
  | .bool => Reader.flag
  | .string => Reader.text
  | .array n => Reader.block n
  | .list t => Reader.list t.shape t.decode
  | .option t => do if ← Reader.flag then return some (← t.decode) else return none
  | .boxed t => return ⟨← t.decode⟩
  | .wrapper _ t => return ⟨← t.decode⟩
  | .record .listing _ members => Row.decode members
  | .record .selection _ members => return MarkedRow.complete members (← MarkedRow.decode members)
def Row.decode : (members : List (Member Ty)) → Reader (Row members)
  | [] => return ()
  | ⟨_, t, _⟩ :: ms => return (← t.decode, ← Row.decode ms)
def MarkedRow.decode : (members : List (Member Ty)) → Reader (MarkedRow members)
  | [] => return ()
  | ⟨_, t, true⟩ :: ms => return (← t.decode, ← MarkedRow.decode ms)
  | ⟨_, _, false⟩ :: ms => MarkedRow.decode ms
end

end

/-! ## Reflection -/

/-- A dynamic value made from a declared one by way of the wire. It fails where the written value
cannot be read back, as a list of empty elements at the end of a buffer. -/
def Ty.reflect (t : Ty) (v : t.Val) : Report WireError Value :=
  match (t.encode v).toExcept with
  | .error e => ⟨.error e, []⟩
  | .ok bytes => ⟨(t.shape.decode bytes).result, (t.shape.decode bytes).events⟩

end PeerWire
