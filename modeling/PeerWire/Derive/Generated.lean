import PeerWire.Derive.Meaning

/-!
# Generated records

A struct has its codec generated in one of two ways. Derivation goes by the marks on the fields. A
listing gives all fields at once, all of which travel, and has code of its own: the variables have
the names of the fields, the item is put together by a constructor that takes a parameter for each
field, and positions are counted while the fields are described.

As with expansions, code that asks for what is not there has no meaning (`none`).
-/

namespace PeerWire.Derive

/-! ## Listings -/

/-- A struct by its fields, each a name with the text of a type. -/
structure Listing where
  name : String
  fields : List (String × String)
  distinct : (fields.map fun (name, _) => Label.bareName name).Nodup

namespace Listing

def choices (l : Listing) : List (Field × Bool) :=
  l.fields.map fun (name, ty) => (⟨.name name, ty, []⟩, true)

/-- The struct that the listing amounts to, with all fields marked for derivation. -/
def item (l : Listing) : Item :=
  ⟨.struct, l.name, [], [], .named (l.fields.map fun (name, ty) => (name, ⟨ty, [⟨marker, true⟩]⟩))⟩

/-- The variables of the code, after which the parameters of the constructor are called, with the
text of their types. -/
def parameters (l : Listing) : List (String × String) :=
  l.fields.map fun (name, ty) => (Label.bareName name, ty)

/-- The body of the constructor, which sets each field to the parameter of its name. -/
def construction (l : Listing) : Construction :=
  .named (l.fields.map fun (name, _) => (name, .bound (Label.bareName name)))

end Listing

section

variable (types : String → Ty)

@[reducible] def Listing.decl (l : Listing) : Decl :=
  ⟨.listing, l.name, l.choices.map (member types)⟩

variable {types} [Defaults]

/-- Declares parameters in the scope of a body, each as the argument in its place. -/
def pass (scope : Scope types) :
    (parameters : List (String × String)) → (arguments : List String) → Scope types →
      Option (Scope types)
  | [], [], body => some body
  | (parameter, ty) :: parameters, argument :: arguments, body => do
    let v ← (Source.bound argument).value? scope ty
    pass scope parameters arguments (body.declare parameter v)
  | _, _, _ => none

/-- A call of the constructor, which has a parameter for each field. -/
def Listing.new? (l : Listing) (scope : Scope types) (arguments : List String) :
    Option (l.decl types).Val := do
  let body ← pass scope l.parameters arguments fun _ => none
  l.construction.build? body l.choices

variable (types)

def Listing.decode (l : Listing) : Reader (Option (l.decl types).Val) := do
  let scope ← bindAll types l.parameters fun _ => none
  return l.new? scope (l.parameters.map Prod.fst)

def Listing.encode (l : Listing) (row : (l.decl types).Val) : Option Emission :=
  Emission.concat <$> (l.fields.map fun (name, _) => Label.name name).mapM fun label =>
    (emissions types l.choices row).lookup label

/-- Describes fields behind others. A field's position is the number of fields in front of it. -/
def describe : List (String × String) → List PeerWire.Field → List PeerWire.Field
  | [], described => described
  | (name, ty) :: fields, described =>
    describe fields (described ++ [⟨name, described.length, (types ty).shape⟩])

/-! ## Either way -/

inductive Generated where
  | derived (d : Derived)
  | listed (l : Listing)

namespace Generated

def form : Generated → Form
  | derived _ => .selection
  | listed _ => .listing

def name : Generated → String
  | derived d => d.item.name
  | listed l => l.name

def choices : Generated → List (Field × Bool)
  | derived d => d.item.choices
  | listed l => l.choices

/-- The name that the code gives for its record. -/
def typeName : Generated → String
  | derived d => d.expansion.name
  | listed l => l.name

/-- What the code gives as the fields of its record. -/
def fields : Generated → List PeerWire.Field
  | derived d => d.expansion.descriptors.map fun x => ⟨x.name, x.position, (types x.ty).shape⟩
  | listed l => describe types l.fields []

def shape (g : Generated) : Shape := .record g.typeName (g.fields types)

@[reducible] def decl (g : Generated) : Decl :=
  ⟨g.form, g.name, g.choices.map (member types)⟩

def decode : (g : Generated) → Reader (Option (g.decl types).Val)
  | derived d => d.decode types
  | listed l => l.decode types

def encode : (g : Generated) → (g.decl types).Val → Option Emission
  | derived d => d.encode types
  | listed l => l.encode types

def unmarshal (g : Generated) (buffer : Bytes) :
    Report WireError (Option (g.decl types).Val × Bytes) :=
  (g.decode types).front buffer

/-- A dynamic value made of a record by way of the wire. -/
def reflect (g : Generated) (row : (g.decl types).Val) : Option (Report WireError Value) :=
  (g.encode types row).map fun written =>
    match written.toExcept with
    | .error e => ⟨.error e, []⟩
    | .ok bytes => ⟨((g.shape types).decode bytes).result, ((g.shape types).decode bytes).events⟩

end Generated

/-! ## Fields and their values -/

/-- A field of a record with its value. -/
structure FieldValue where
  label : Label
  marked : Bool
  ty : String
  value : (types ty).Val

variable {types}

def fieldValues : (choices : List (Field × Bool)) → RowOf types choices → List (FieldValue types)
  | [], _ => []
  | (f, marked) :: choices, (v, row) => ⟨f.label, marked, f.ty, v⟩ :: fieldValues choices row

/-- The fields that travel, with their values. -/
def travelling (choices : List (Field × Bool)) (row : RowOf types choices) :
    List (FieldValue types) :=
  (fieldValues choices row).filter (·.marked)

end

end PeerWire.Derive
