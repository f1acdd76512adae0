import PeerWire.Bytes
import PeerWire.Shape

/-!
# Dynamic values

A value that carries its own form, for callers that learn shapes at run time. A record holds the
values of its fields in wire order, without their names.
-/

namespace PeerWire

inductive Value where
  | u8 (n : UInt8)
  | u16 (n : UInt16)
  | u32 (n : UInt32)
  | u64 (n : UInt64)
  | bool (b : Bool)
  | fixedBytes (bytes : Bytes)
  | string (text : String)
  | list (items : List Value)
  | optional (inner : Option Value)
  | record (values : List Value)

namespace Value

def kind : Value → Kind
  | u8 _ => .u8
  | u16 _ => .u16
  | u32 _ => .u32
  | u64 _ => .u64
  | bool _ => .bool
  | fixedBytes _ => .fixedBytes
  | string _ => .string
  | list _ => .list
  | optional _ => .optional
  | record _ => .record

/-- The value of the first field of that name, taken from the field's own position. -/
def field? (v : Value) (s : Shape) (name : String) : Option Value :=
  match v, s with
  | record values, .record _ fields => do
    let f ← fields.find? (·.name == name)
    values[f.position]?
  | _, _ => none

/-! ## Equality -/

mutual
def same : Value → Value → Bool
  | u8 m, u8 n => m == n
  | u16 m, u16 n => m == n
  | u32 m, u32 n => m == n
  | u64 m, u64 n => m == n
  | bool a, bool b => a == b
  | fixedBytes as, fixedBytes bs => as == bs
  | string s, string t => s == t
  | list vs, list ws => sameAll vs ws
  | optional none, optional none => true
  | optional (some v), optional (some w) => v.same w
  | record vs, record ws => sameAll vs ws
  | _, _ => false
def sameAll : List Value → List Value → Bool
  | [], [] => true
  | v :: vs, w :: ws => v.same w && sameAll vs ws
  | _, _ => false
end

theorem same_iff (v w : Value) : v.same w = true ↔ v = w := by
  induction v using Value.rec (motive_2 := fun vs => ∀ ws, sameAll vs ws = true ↔ vs = ws)
    (motive_3 := fun o => ∀ w, (optional o).same w = true ↔ optional o = w) generalizing w with
  | u8 n => cases w <;> simp [same]
  | u16 n => cases w <;> simp [same]
  | u32 n => cases w <;> simp [same]
  | u64 n => cases w <;> simp [same]
  | bool b => cases w <;> simp [same]
  | fixedBytes bs => cases w <;> simp [same]
  | string s => cases w <;> simp [same]
  | list vs ih => cases w <;> simp [same, ih]
  | optional o ih => exact ih w
  | record vs ih => cases w <;> simp [same, ih]
  | nil ws => cases ws <;> simp [sameAll]
  | cons v vs hv ih ws => cases ws <;> simp [sameAll, hv, ih]
  | none w => rcases w with _ | _ | _ | _ | _ | _ | _ | _ | (_ | _) | _ <;> simp [same]
  | some v ih w => rcases w with _ | _ | _ | _ | _ | _ | _ | _ | (_ | _) | _ <;> simp [same, ih]

instance : DecidableEq Value := fun v w => decidable_of_iff _ (same_iff v w)

end Value

end PeerWire
