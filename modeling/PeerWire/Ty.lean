import PeerWire.Bytes
import PeerWire.Shape

/-!
# Declared types

A universe of types whose values travel: numbers, flags, text, byte arrays, lists, options, records,
and two constructions that leave no trace on the wire, boxes and wrappers. `Ty.Val` gives each the
Lean type of its values.

A record is declared in one of two forms. A listing puts all its members on the wire. A selection
puts its marked members there, and a reader fills the others with defaults. A value of either is a
row, one entry for each member.
-/

namespace PeerWire

inductive Form where
  | listing | selection
  deriving DecidableEq, Repr

/-- A member of a record. One without a name goes by its index in the declaration; only a selection
looks at the mark. -/
structure Member (τ : Type) where
  name? : Option String
  ty : τ
  marked : Bool
  deriving DecidableEq, Repr

/-- A member that travels. -/
@[reducible] def Member.named {τ : Type} (name : String) (ty : τ) : Member τ :=
  ⟨some name, ty, true⟩

def Member.label {τ : Type} (m : Member τ) (index : Nat) : String := m.name?.getD (toString index)

inductive Ty where
  | u8 | u16 | u32 | u64 | bool | string
  | array (size : Nat)
  | list (element : Ty)
  | option (inner : Ty)
  | boxed (inner : Ty)
  | wrapper (name : String) (inner : Ty)
  | record (form : Form) (name : String) (members : List (Member Ty))

/-- A value behind a pointer. -/
structure Boxed (α : Type) where
  content : α
  deriving DecidableEq, Repr

/-- A value under a type name of its own. -/
structure Wrapped (α : Type) where
  inner : α
  deriving DecidableEq, Repr

mutual
@[reducible] def Ty.Val : Ty → Type
  | .u8 => UInt8
  | .u16 => UInt16
  | .u32 => UInt32
  | .u64 => UInt64
  | .bool => Bool
  | .string => String
  | .array n => Block n
  | .list t => List t.Val
  | .option t => Option t.Val
  | .boxed t => Boxed t.Val
  | .wrapper _ t => Wrapped t.Val
  | .record _ _ members => Row members
/-- A value for each member, in the order of declaration. -/
@[reducible] def Row : List (Member Ty) → Type
  | [] => Unit
  | ⟨_, t, _⟩ :: ms => t.Val × Row ms
end

/-! ## Defaults -/

/-- The defaults of wrappers and records. Whoever declares a type with a name of its own is free in
the choice. -/
class Defaults where
  /-- What is in the default of a wrapper. -/
  wrapper : (name : String) → (inner : Ty) → inner.Val
  record : (form : Form) → (name : String) → (members : List (Member Ty)) → Row members

/-- Zero, false, empty or absent, and what a named type chooses. -/
def Ty.default [Defaults] : (t : Ty) → t.Val
  | .u8 => (0 : UInt8)
  | .u16 => (0 : UInt16)
  | .u32 => (0 : UInt32)
  | .u64 => (0 : UInt64)
  | .bool => false
  | .string => ""
  | .array n => Block.zero n
  | .list _ => []
  | .option _ => none
  | .boxed t => ⟨t.default⟩
  | .wrapper name t => ⟨Defaults.wrapper name t⟩
  | .record form name members => Defaults.record form name members

mutual
/-- Zero, false, empty or absent, and of a wrapper or record its parts' zeros. -/
def Ty.zero : (t : Ty) → t.Val
  | .u8 => (0 : UInt8)
  | .u16 => (0 : UInt16)
  | .u32 => (0 : UInt32)
  | .u64 => (0 : UInt64)
  | .bool => false
  | .string => ""
  | .array n => Block.zero n
  | .list _ => []
  | .option _ => none
  | .boxed t => ⟨t.zero⟩
  | .wrapper _ t => ⟨t.zero⟩
  | .record _ _ members => Row.zero members
def Row.zero : (members : List (Member Ty)) → Row members
  | [] => ()
  | ⟨_, t, _⟩ :: ms => (t.zero, Row.zero ms)
end

/-- All named types choose their zeros. -/
@[reducible] def Defaults.zero : Defaults where
  wrapper _ inner := inner.zero
  record _ _ members := Row.zero members

/-! ## Marked members -/

/-- A value for each marked member. -/
@[reducible] def MarkedRow : List (Member Ty) → Type
  | [] => Unit
  | ⟨_, t, true⟩ :: ms => t.Val × MarkedRow ms
  | ⟨_, _, false⟩ :: ms => MarkedRow ms

/-- Fills the members that are not marked with their defaults. -/
def MarkedRow.complete [Defaults] : (members : List (Member Ty)) → MarkedRow members → Row members
  | [], _ => ()
  | ⟨_, _, true⟩ :: ms, (v, row) => (v, MarkedRow.complete ms row)
  | ⟨_, t, false⟩ :: ms, row => (t.default, MarkedRow.complete ms row)

/-! ## Shapes -/

mutual
def Ty.shape : Ty → Shape
  | .u8 => .u8
  | .u16 => .u16
  | .u32 => .u32
  | .u64 => .u64
  | .bool => .bool
  | .string => .string
  | .array n => .fixedBytes n
  | .list t => .list t.shape
  | .option t => .optional t.shape
  | .boxed t => t.shape
  | .wrapper _ t => t.shape
  | .record .listing name members => .record name (listingFields 0 members)
  | .record .selection name members => .record name (selectionFields 0 0 members)
/-- The fields of a listing, numbered from `position`. -/
def listingFields (position : Nat) : List (Member Ty) → List Field
  | [] => []
  | ⟨name?, t, marked⟩ :: ms =>
    ⟨Member.label ⟨name?, t, marked⟩ position, position, t.shape⟩ :: listingFields (position + 1) ms
/-- The fields of the marked members from index `index` of the declaration on. -/
def selectionFields (index position : Nat) : List (Member Ty) → List Field
  | [] => []
  | ⟨name?, t, true⟩ :: ms =>
    ⟨Member.label ⟨name?, t, true⟩ index, position, t.shape⟩ ::
      selectionFields (index + 1) (position + 1) ms
  | ⟨_, _, false⟩ :: ms => selectionFields (index + 1) position ms
end

end PeerWire
