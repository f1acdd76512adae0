import PeerWire.Ty.Codec

/-!
# Records

Record declarations on their own, since only records travel as whole messages, and Lean structures
that stand for the rows of a declaration.
-/

namespace PeerWire

structure Decl where
  form : Form
  name : String
  members : List (Member Ty)

namespace Decl

@[reducible] def ty (d : Decl) : Ty := .record d.form d.name d.members

abbrev Val (d : Decl) : Type := Row d.members

/-- The fields that travel, in wire order. -/
def fields (d : Decl) : List Field :=
  match d.form with
  | .listing => listingFields 0 d.members
  | .selection => selectionFields 0 0 d.members

def shape (d : Decl) : Shape := .record d.name d.fields

theorem shape_ty (d : Decl) : d.ty.shape = d.shape := by
  rcases d with ⟨_ | _, _, _⟩ <;> rfl

def marshal (d : Decl) (v : d.Val) : Except WireError Bytes := (d.ty.encode v).toExcept

def unmarshal [Defaults] (d : Decl) (buffer : Bytes) : Report WireError (d.Val × Bytes) :=
  d.ty.decode.front buffer

/-- Reads a record in place of an older one, which stays as it is if the reading fails. -/
def refill [Defaults] (d : Decl) (target : d.Val) (buffer : Bytes) :
    Report WireError Bytes × d.Val :=
  match d.unmarshal buffer with
  | ⟨.ok (v, rest), events⟩ => (⟨.ok rest, events⟩, v)
  | ⟨.error e, events⟩ => (⟨.error e, events⟩, target)

end Decl

/-- A Lean type whose values are those of a record declaration. -/
class Record (α : Type) where
  decl : Decl
  toRow : α → decl.Val
  ofRow : decl.Val → α
  ofRow_toRow : ∀ a, ofRow (toRow a) = a
  toRow_ofRow : ∀ row, toRow (ofRow row) = row

namespace Record

attribute [simp] ofRow_toRow toRow_ofRow

variable {α : Type} [Record α]

/-- The values of a list of records, and the records of a list of values. -/
def toRows (as : List α) : List (decl α).Val := as.map toRow

def ofRows (rows : List (decl α).Val) : List α := rows.map ofRow

@[simp] theorem ofRows_toRows (as : List α) : ofRows (toRows as) = as := by
  simp [ofRows, toRows, Function.comp_def]

@[simp] theorem toRows_ofRows (rows : List (decl α).Val) :
    toRows (ofRows rows : List α) = rows := by
  simp [ofRows, toRows, Function.comp_def]

end Record

end PeerWire
