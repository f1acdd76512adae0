/-!
# Items

Rust items as far as the derivation of a codec looks at them. Types, bounds and conditions are text
that is copied to the output, in the spelling of Rust's token printer; nothing here looks inside.
-/

namespace PeerWire.Derive

inductive ItemKind where
  | struct | enum | union
  deriving DecidableEq, Repr

/-- An attribute, bare if nothing follows its path. -/
structure Attribute where
  path : String
  bare : Bool
  deriving DecidableEq, Repr

/-- What a field is known by inside its item. Names are compared as they are written, so a raw name
differs from the plain one. -/
inductive Label where
  | name (text : String)
  | index (i : Nat)
  deriving DecidableEq, Repr

namespace Label

/-- The text of a label, as the item writes it. -/
def text : Label → String
  | name s => s
  | index i => toString i

/-- A name without the mark of a raw identifier. -/
def bareName (s : String) : String :=
  match s.toList with
  | 'r' :: '#' :: cs => String.ofList cs
  | _ => s

/-- The variable that a decoded field is bound to. -/
def binding : Label → String
  | name s => "__field_" ++ bareName s
  | index i => "__field_" ++ toString i

end Label

structure Field where
  label : Label
  ty : String
  attributes : List Attribute
  deriving DecidableEq, Repr

/-- A field before it has its label. -/
structure Slot where
  ty : String
  attributes : List Attribute
  deriving DecidableEq, Repr

inductive Fields where
  | named (fields : List (String × Slot))
  | tuple (fields : List Slot)
  | unit
  deriving DecidableEq, Repr

/-- The fields with their labels. Fields of a tuple are labelled by their index among all. -/
def Fields.toList : Fields → List Field
  | named fields => fields.map fun (name, s) => ⟨.name name, s.ty, s.attributes⟩
  | tuple fields => fields.zipIdx.map fun (s, i) => ⟨.index i, s.ty, s.attributes⟩
  | unit => []

inductive Param where
  | lifetime (name bounds : String)
  | type (name bounds : String) (default? : Option String)
  | const (name ty : String) (default? : Option String)
  deriving DecidableEq, Repr

structure Item where
  kind : ItemKind
  name : String
  params : List Param
  conditions : List String
  fields : Fields
  deriving DecidableEq, Repr

end PeerWire.Derive
