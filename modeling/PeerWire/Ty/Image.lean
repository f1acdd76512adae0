import PeerWire.Ty
import PeerWire.Value

/-!
# Images and stripped values

Two views of a declared value that say what the wire keeps of it. The image is the dynamic value
that travels. The stripped value is what a reader can know of it: the same value with a default in
place of each member that does not travel, at every depth.
-/

namespace PeerWire

mutual
/-- The value as its shape sees it: boxes and wrappers vanish, and a record keeps the members that
travel. -/
def Ty.image : (t : Ty) → t.Val → Value
  | .u8, n => .u8 n
  | .u16, n => .u16 n
  | .u32, n => .u32 n
  | .u64, n => .u64 n
  | .bool, b => .bool b
  | .string, s => .string s
  | .array _, bytes => .fixedBytes bytes.val
  | .list t, items => .list (items.map t.image)
  | .option _, none => .optional none
  | .option t, some v => .optional (some (t.image v))
  | .boxed t, v => t.image v.content
  | .wrapper _ t, v => t.image v.inner
  | .record .listing _ members, row => .record (Row.images members row)
  | .record .selection _ members, row => .record (Row.markedImages members row)
def Row.images : (members : List (Member Ty)) → Row members → List Value
  | [], _ => []
  | ⟨_, t, _⟩ :: ms, (v, row) => t.image v :: Row.images ms row
def Row.markedImages : (members : List (Member Ty)) → Row members → List Value
  | [], _ => []
  | ⟨_, t, true⟩ :: ms, (v, row) => t.image v :: Row.markedImages ms row
  | ⟨_, _, false⟩ :: ms, (_, row) => Row.markedImages ms row
end

section

variable [Defaults]

mutual
/-- The value with its unmarked members set to their defaults. -/
def Ty.strip : (t : Ty) → t.Val → t.Val
  | .u8, n => n
  | .u16, n => n
  | .u32, n => n
  | .u64, n => n
  | .bool, b => b
  | .string, s => s
  | .array _, bytes => bytes
  | .list t, items => items.map t.strip
  | .option _, none => none
  | .option t, some v => some (t.strip v)
  | .boxed t, v => ⟨t.strip v.content⟩
  | .wrapper _ t, v => ⟨t.strip v.inner⟩
  | .record .listing _ members, row => Row.strip members row
  | .record .selection _ members, row => Row.stripUnmarked members row
def Row.strip : (members : List (Member Ty)) → Row members → Row members
  | [], _ => ()
  | ⟨_, t, _⟩ :: ms, (v, row) => (t.strip v, Row.strip ms row)
def Row.stripUnmarked : (members : List (Member Ty)) → Row members → Row members
  | [], _ => ()
  | ⟨_, t, true⟩ :: ms, (v, row) => (t.strip v, Row.stripUnmarked ms row)
  | ⟨_, t, false⟩ :: ms, (_, row) => (t.default, Row.stripUnmarked ms row)
end

end

end PeerWire
