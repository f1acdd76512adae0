import PeerWire.Json
import PeerWire.Ty

/-!
# JSON forms

Which JSON a value of a declared type is written as and read from. Bytes are an array of numbers,
what is absent is null, and boxes and wrappers leave no trace. A record is written as an object
with its members in order; it is read from an object in any order, in which unknown keys do not
matter and known ones may not repeat, or from an array of exactly its members.
-/

namespace PeerWire

/-- The key of a member in an object. -/
def Member.key {τ : Type} (m : Member τ) : String := m.name?.getD ""

namespace Json

/-- A number below a bound, without sign, fraction or exponent. -/
def below? (bound : Nat) : Json → Option Nat
  | number (.natural n) => if n < bound then some n else none
  | _ => none

def bool? : Json → Option Bool
  | bool b => some b
  | _ => none

def text? : Json → Option String
  | string atoms => Quoted.text? atoms
  | _ => none

def items? : Json → Option (List Json)
  | array items => some items
  | _ => none

/-- Null is taken for what is absent. -/
def orNull {α : Type} (read : Json → Option α) : Json → Option (Option α)
  | null => some none
  | j => some <$> read j

/-- The only value under a key, if the key occurs. No result if it repeats. -/
def lookup (key : String) (members : List (String × Json)) : Option (Option Json) :=
  match members.filter (·.1 == key) with
  | [] => some none
  | [(_, j)] => some (some j)
  | _ => none

/-- The values of a record's members, in the order of their names. An object may lack some. Its
keys have to be text, also those that are not looked up. -/
def slots? (names : List String) : Json → Option (List (Option Json))
  | array items => if items.length = names.length then some (items.map some) else none
  | object members => do
    let members ← members.mapM fun (key, j) => (·, j) <$> Quoted.text? key
    names.mapM (lookup · members)
  | _ => none

/-- The name of a case: a string, or the only key of an object with null behind it. -/
def variant? : Json → Option String
  | string atoms => Quoted.text? atoms
  | object [(key, null)] => Quoted.text? key
  | _ => none

end Json

/-! ## Writing -/

mutual
def Ty.toJson : (t : Ty) → t.Val → Json
  | .u8, n => .nat n.toNat
  | .u16, n => .nat n.toNat
  | .u32, n => .nat n.toNat
  | .u64, n => .nat n.toNat
  | .bool, b => .bool b
  | .string, s => .text s
  | .array _, bytes => .array (bytes.val.map fun byte => .nat byte.toNat)
  | .list t, items => .array (items.map t.toJson)
  | .option _, none => .null
  | .option t, some v => t.toJson v
  | .boxed t, v => t.toJson v.content
  | .wrapper _ t, v => t.toJson v.inner
  | .record _ _ members, row => .record (Row.entries members row)
def Row.entries : (members : List (Member Ty)) → Row members → List (String × Json)
  | [], _ => []
  | ⟨name?, t, marked⟩ :: ms, (v, row) =>
    (Member.key ⟨name?, t, marked⟩, t.toJson v) :: Row.entries ms row
end

/-! ## Reading -/

/-- What a member is taken for if an object lacks it. -/
def Ty.absent? : (t : Ty) → Option t.Val
  | .option _ => some none
  | .boxed t => Boxed.mk <$> t.absent?
  | _ => none

mutual
def Ty.ofJson? : (t : Ty) → Json → Option t.Val
  | .u8, j => UInt8.ofNat <$> j.below? UInt8.size
  | .u16, j => UInt16.ofNat <$> j.below? UInt16.size
  | .u32, j => UInt32.ofNat <$> j.below? UInt32.size
  | .u64, j => UInt64.ofNat <$> j.below? UInt64.size
  | .bool, j => j.bool?
  | .string, j => j.text?
  | .array n, j => do
    let bytes ← (← j.items?).mapM fun byte => UInt8.ofNat <$> byte.below? UInt8.size
    if h : bytes.length = n then some ⟨bytes, h⟩ else none
  | .list t, j => do (← j.items?).mapM t.ofJson?
  | .option t, j => j.orNull t.ofJson?
  | .boxed t, j => Boxed.mk <$> t.ofJson? j
  | .wrapper _ t, j => Wrapped.mk <$> t.ofJson? j
  | .record _ _ members, j => do Row.ofSlots? members (← j.slots? (members.map Member.key))
def Row.ofSlots? : (members : List (Member Ty)) → List (Option Json) → Option (Row members)
  | [], [] => some ()
  | ⟨_, t, _⟩ :: ms, slot :: slots => do
    some (← slot.elim t.absent? t.ofJson?, ← Row.ofSlots? ms slots)
  | _, _ => none
end

end PeerWire
