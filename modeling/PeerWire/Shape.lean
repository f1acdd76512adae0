import PeerWire.Bytes
import PeerWire.Error

/-!
# Shapes

The shape of a value fixes how it is written: the width of a number, the size of a byte run, the
element of a list, the fields of a record in wire order. Names and positions of fields are for
looking them up (`Value.field?`); they leave no trace on the wire.

`fixedSize?` and `minSize` bound the number of bytes of a value, and `reserve` turns the bound on
a list's elements into a bound on the room that they may be given before they are read. Room is
counted by a machine with words of 64 bits, in which a sum of sizes may wrap around.
-/

namespace PeerWire

/-- A field of a record, with its place among the record's values. -/
structure FieldOf (σ : Type) where
  name : String
  position : Nat
  shape : σ
  deriving DecidableEq, Repr

inductive Shape where
  | u8 | u16 | u32 | u64 | bool
  | fixedBytes (size : Nat)
  | string
  | list (element : Shape)
  | optional (inner : Shape)
  | record (name : String) (fields : List (FieldOf Shape))

abbrev Field := FieldOf Shape

namespace Shape

/-- Induction on shapes, where a record comes with the claim for each of its fields. -/
theorem induction {motive : Shape → Prop} (u8 : motive .u8) (u16 : motive .u16)
    (u32 : motive .u32) (u64 : motive .u64) (bool : motive .bool)
    (fixedBytes : ∀ size, motive (.fixedBytes size)) (string : motive .string)
    (list : ∀ element, motive element → motive (.list element))
    (optional : ∀ inner, motive inner → motive (.optional inner))
    (record : ∀ name fields, (∀ s ∈ fields.map FieldOf.shape, motive s) →
      motive (.record name fields)) (s : Shape) : motive s := by
  induction s using Shape.rec (motive_2 := fun fs => ∀ s ∈ fs.map FieldOf.shape, motive s)
    (motive_3 := fun f => motive f.shape) with
  | u8 => exact u8
  | u16 => exact u16
  | u32 => exact u32
  | u64 => exact u64
  | bool => exact bool
  | fixedBytes size => exact fixedBytes size
  | string => exact string
  | list element ih => exact list element ih
  | optional inner ih => exact optional inner ih
  | record name fields ih => exact record name fields ih
  | nil s hs => cases hs
  | cons f fields hf ih s hs =>
    rcases List.mem_cons.1 hs with rfl | hs
    · exact hf
    · exact ih s hs
  | mk name position shape ih => exact ih

def kind : Shape → Kind
  | u8 => .u8
  | u16 => .u16
  | u32 => .u32
  | u64 => .u64
  | bool => .bool
  | fixedBytes _ => .fixedBytes
  | string => .string
  | list _ => .list
  | optional _ => .optional
  | record _ _ => .record

def isRecord : Shape → Bool
  | record _ _ => true
  | _ => false

/-! ## Sizes -/

mutual
/-- The number of bytes of every value of the shape, where the shape alone decides it. -/
def fixedSize? : Shape → Option Nat
  | u8 | bool => some 1
  | u16 => some 2
  | u32 => some 4
  | u64 => some 8
  | fixedBytes n => some n
  | string | list _ | optional _ => none
  | record _ fields => fieldsFixedSize? fields
def fieldsFixedSize? : List Field → Option Nat
  | [] => some 0
  | ⟨_, _, s⟩ :: fields => do return (← s.fixedSize?) + (← fieldsFixedSize? fields)
end

mutual
/-- The number of bytes that no value of the shape stays below. -/
def minSize : Shape → Nat
  | u8 | bool => 1
  | u16 => 2
  | u32 => 4
  | u64 => 8
  | fixedBytes n => n
  | string | list _ => 4
  | optional _ => 1
  | record _ fields => fieldsMinSize fields
def fieldsMinSize : List Field → Nat
  | [] => 0
  | ⟨_, _, s⟩ :: fields => s.minSize + fieldsMinSize fields
end

mutual
/-- `minSize` as the machine adds it up, where a sum that does not fit in a word wraps around. -/
def minSizeWord : Shape → UInt64
  | u8 | bool => 1
  | u16 => 2
  | u32 => 4
  | u64 => 8
  | fixedBytes n => UInt64.ofNat n
  | string | list _ => 4
  | optional _ => 1
  | record _ fields => fieldsMinSizeWord fields
def fieldsMinSizeWord : List Field → UInt64
  | [] => 0
  | ⟨_, _, s⟩ :: fields => s.minSizeWord + fieldsMinSizeWord fields
end

/-- A number that fits in a word. -/
def word? (n : Nat) : Option Nat := if n < BigEndian.capacity 8 then some n else none

mutual
/-- `minSize` as the machine adds it up under a check for overflow, which stops at a sum that does
not fit in a word. -/
def minSize? : Shape → Option Nat
  | u8 | bool => some 1
  | u16 => some 2
  | u32 => some 4
  | u64 => some 8
  | fixedBytes n => word? n
  | string | list _ => some 4
  | optional _ => some 1
  | record _ fields => fieldsMinSize? fields
def fieldsMinSize? : List Field → Option Nat
  | [] => some 0
  | ⟨_, _, s⟩ :: fields => do word? ((← s.minSize?) + (← fieldsMinSize? fields))
end

/-- How many elements of a list to make room for before reading them. A list may not claim more
elements than there are bytes left, whatever their size. -/
def reserve (element : Shape) (count remaining : Nat) : Except WireError Nat :=
  if count > remaining then .error (.insufficientBytes count remaining)
  else .ok (min count (remaining / max 1 element.minSizeWord.toNat))

/-- `reserve` under a check for overflow. -/
def reserve? (element : Shape) (count remaining : Nat) : Option (Except WireError Nat) :=
  if count > remaining then some (.error (.insufficientBytes count remaining))
  else do some (.ok (min count (remaining / max 1 (← element.minSize?))))

/-! ## Equality -/

mutual
def same : Shape → Shape → Bool
  | u8, u8 | u16, u16 | u32, u32 | u64, u64 | bool, bool | string, string => true
  | fixedBytes m, fixedBytes n => m == n
  | list s, list t => s.same t
  | optional s, optional t => s.same t
  | record m fs, record n gs => m == n && sameFields fs gs
  | _, _ => false
def sameFields : List Field → List Field → Bool
  | [], [] => true
  | ⟨m, i, s⟩ :: fs, ⟨n, j, t⟩ :: gs => m == n && i == j && s.same t && sameFields fs gs
  | _, _ => false
end

theorem same_iff (s t : Shape) : s.same t = true ↔ s = t := by
  induction s using Shape.rec (motive_2 := fun fs => ∀ gs, sameFields fs gs = true ↔ fs = gs)
    (motive_3 := fun f => ∀ t, f.shape.same t = true ↔ f.shape = t) generalizing t with
  | u8 | u16 | u32 | u64 | bool | string => cases t <;> simp [same]
  | fixedBytes n => cases t <;> simp [same]
  | list s ih => cases t <;> simp [same, ih]
  | optional s ih => cases t <;> simp [same, ih]
  | record m fs ih => cases t <;> simp [same, ih]
  | nil gs => cases gs <;> simp [sameFields]
  | cons f fs hf ih gs =>
    cases gs with
    | nil => simp [sameFields]
    | cons g gs => cases f; cases g; simp_all [sameFields, and_assoc]
  | mk _ _ s ih t => exact ih t

instance : DecidableEq Shape := fun s t => decidable_of_iff _ (same_iff s t)

end Shape

end PeerWire
