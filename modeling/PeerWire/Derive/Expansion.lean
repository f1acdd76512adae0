import PeerWire.Derive.Item

/-!
# Expansions

What the derivation makes of an item: which fields travel, in which order they are decoded and
encoded, how the item is put together from what was decoded, and how its fields are described.

A field travels if it carries the marker attribute, once and bare. Attributes with another path do
not matter, and an item that is no struct is refused before any attribute is looked at.
-/

namespace PeerWire.Derive

inductive DeriveError where
  | notStruct
  /-- The marker is followed by arguments or a value. -/
  | notBare
  | repeatedMark
  deriving DecidableEq, Repr

def DeriveError.message : DeriveError → String
  | .notStruct => "Streamable derive macro only supports structs"
  | .notBare => "expected a bare #[streamable] attribute"
  | .repeatedMark => "duplicate #[streamable] attribute"

/-! ## Selection -/

/-- The path of the marker attribute. -/
def marker : String := "streamable"

/-- Whether the attributes hold the marker, given whether it came before them. -/
def markedAfter (before : Bool) : List Attribute → Except DeriveError Bool
  | [] => .ok before
  | a :: as =>
    if a.path ≠ marker then markedAfter before as
    else if !a.bare then .error .notBare
    else if before then .error .repeatedMark
    else markedAfter true as

def Field.marked (f : Field) : Except DeriveError Bool := markedAfter false f.attributes

/-- The marked fields, unless the attributes of some field are at fault. -/
def select : List Field → Except DeriveError (List Field)
  | [] => .ok []
  | f :: fs => do
    let marked ← f.marked
    let rest ← select fs
    return if marked then f :: rest else rest

/-! ## Expansion -/

/-- Where a field's value comes from when the item is put together. -/
inductive Source where
  | bound (variableName : String)
  | default
  deriving DecidableEq, Repr

inductive Construction where
  | named (values : List (String × Source))
  | tuple (values : List Source)
  | unit
  deriving DecidableEq, Repr

structure Descriptor where
  name : String
  position : Nat
  ty : String
  deriving DecidableEq, Repr

structure Expansion where
  name : String
  params : List Param
  conditions : List String
  /-- Variables with the types that they are decoded as, in order. -/
  decodes : List (String × String)
  construction : Construction
  encodes : List Label
  descriptors : List Descriptor
  deriving DecidableEq, Repr

/-- A field is bound to what the first wire field of its label was decoded to. -/
def sourceOf (wire : List Field) (label : Label) : Source :=
  match wire.find? (·.label == label) with
  | some f => .bound f.label.binding
  | none => .default

def construct (wire : List Field) : Fields → Construction
  | .named fields => .named (fields.map fun (name, _) => (name, sourceOf wire (.name name)))
  | .tuple fields => .tuple (fields.zipIdx.map fun (_, i) => sourceOf wire (.index i))
  | .unit => .unit

def expand (item : Item) : Except DeriveError Expansion :=
  match item.kind with
  | .struct => do
    let wire ← select item.fields.toList
    return {
      name := item.name
      params := item.params
      conditions := item.conditions
      decodes := wire.map fun f => (f.label.binding, f.ty)
      construction := construct wire item.fields
      encodes := wire.map Field.label
      descriptors := wire.zipIdx.map fun (f, position) => ⟨f.label.text, position, f.ty⟩ }
  | _ => .error .notStruct

end PeerWire.Derive
