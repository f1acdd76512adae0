import PeerWire.Derive.Expansion
import PeerWire.Record

/-!
# What expansions mean

The code of an expansion, run. Types stand in it as text, so their meaning is a parameter. To
decode, the code binds variables in order, and then puts the item together from the scope that they
leave; to encode, it goes through labels. Code that asks for a variable or a field that is not
there, or for a variable of another type, has no meaning (`none`), and neither has a construction
that does not set each field of the item once.

Beside it stands the declaration that an item amounts to (`Item.decl`). The two agree on every item
whose names are distinct.
-/

namespace PeerWire.Derive

/-! ## Declarations -/

/-- Whether a field travels. One with attributes at fault does not, but then nothing is derived. -/
def Field.travels (f : Field) : Bool :=
  match f.marked with
  | .ok marked => marked
  | .error _ => false

def Label.name? : Label → Option String
  | name s => some s
  | index _ => none

/-- No two fields have one name. A raw name is the plain name in another spelling. -/
def Fields.Distinct : Fields → Prop
  | named fields => (fields.map fun (name, _) => Label.bareName name).Nodup
  | tuple _ | unit => True

/-- The fields of an item, each with the answer whether it travels. -/
def Item.choices (item : Item) : List (Field × Bool) :=
  item.fields.toList.map fun f => (f, f.travels)

/-- An item that the derivation accepts. -/
structure Derived where
  item : Item
  expansion : Expansion
  distinct : item.fields.Distinct
  expand_eq : expand item = .ok expansion

section

variable (types : String → Ty)

@[reducible] def member : Field × Bool → Member Ty
  | (f, marked) => ⟨f.label.name?, types f.ty, marked⟩

abbrev RowOf (choices : List (Field × Bool)) : Type := Row (choices.map (member types))

@[reducible] def Item.decl (item : Item) : Decl :=
  ⟨.selection, item.name, item.choices.map (member types)⟩

/-! ## Decoding -/

/-- The variables in scope, with the text of their types. -/
abbrev Scope : Type := String → Option ((ty : String) × (types ty).Val)

variable {types} [Defaults]

/-- A variable hides an older one of its name. -/
def Scope.declare (scope : Scope types) (variableName : String) {ty : String} (v : (types ty).Val) :
    Scope types :=
  fun name => if name = variableName then some ⟨ty, v⟩ else scope name

def Source.value? (scope : Scope types) (ty : String) : Source → Option (types ty).Val
  | bound variableName => do
    let ⟨ty', v⟩ ← scope variableName
    if h : ty' = ty then some (h ▸ v) else none
  | default => some (types ty).default

/-- The fields that are set, with what they are set to. -/
def Construction.entries : Construction → List (Label × Source)
  | named values => values.map fun (name, v) => (.name name, v)
  | tuple values => values.zipIdx.map fun (v, i) => (.index i, v)
  | unit => []

/-- A value for each field, from the entry under its label. -/
def assemble (scope : Scope types) (entries : List (Label × Source)) :
    (choices : List (Field × Bool)) → Option (RowOf types choices)
  | [] => some ()
  | (f, _) :: choices => do
    let source ← entries.lookup f.label
    return (← source.value? scope f.ty, ← assemble scope entries choices)

def Construction.build? (c : Construction) (scope : Scope types)
    (choices : List (Field × Bool)) : Option (RowOf types choices) :=
  if c.entries.length = choices.length then assemble scope c.entries choices else none

variable (types)

/-- Binds the variables one after the other, each to what is read as its type. -/
def bindAll : List (String × String) → Scope types → Reader (Scope types)
  | [], scope => return scope
  | (variableName, ty) :: decodes, scope => do
    let v ← (types ty).decode
    bindAll decodes (scope.declare variableName v)

def Derived.decode (d : Derived) : Reader (Option (d.item.decl types).Val) := do
  let scope ← bindAll types d.expansion.decodes fun _ => none
  return d.expansion.construction.build? scope d.item.choices

/-! ## Encoding -/

/-- The fields of a row, with how each is written. -/
def emissions : (choices : List (Field × Bool)) → RowOf types choices → List (Label × Emission)
  | [], _ => []
  | (f, _) :: choices, (v, row) => (f.label, (types f.ty).encode v) :: emissions choices row

def Derived.encode (d : Derived) (row : (d.item.decl types).Val) : Option Emission :=
  Emission.concat <$>
    d.expansion.encodes.mapM fun label => (emissions types d.item.choices row).lookup label

/-! ## Records -/

def Derived.marshal (d : Derived) (row : (d.item.decl types).Val) :
    Option (Except WireError Bytes) :=
  (d.encode types row).map Emission.toExcept

def Derived.unmarshal (d : Derived) (buffer : Bytes) :
    Report WireError (Option (d.item.decl types).Val × Bytes) :=
  (d.decode types).front buffer

end

end PeerWire.Derive
