import PeerWire.Json.Form
import PeerWire.Json.Grammar
import PeerWire.Record

/-!
# JSON libraries

Records go to JSON and back by way of two other libraries: one derives forms from declarations,
which turn values into JSON and JSON into values, and one prints JSON and reads it. Both are
parameters here (`JsonLibrary`), and four laws say what is relied on: how forms write and read the
types that records are made of, how JSON is printed, and that standard JSON is read.
`JsonLibrary.plain` is a library of this kind.
-/

namespace PeerWire

structure JsonLibrary where
  toJson : (t : Ty) → t.Val → Json
  ofJson? : (t : Ty) → Json → Option t.Val
  print : Json → List Char
  read? : List Char → Option Json

/-- The key stands in the object once, with the value behind it. -/
def Json.Once (object : List (String × Json)) (key : String) (j : Json) : Prop :=
  object.filter (·.1 == key) = [(key, j)]

namespace JsonLibrary

variable (lib : JsonLibrary)

/-! ## Laws -/

/-- The members of a record under their names. -/
def entries : (members : List (Member Ty)) → Row members → List (String × Json)
  | [], _ => []
  | ⟨name?, t, marked⟩ :: ms, (v, row) =>
    (Member.key ⟨name?, t, marked⟩, lib.toJson t v) :: entries ms row

/-- Forms write numbers as numbers, text as a string, a list as an array, what is absent as null,
and a record as an object of its members in order. They are derived for some records only. -/
structure WritesForms (derived : Decl → Prop) : Prop where
  u8 (n : UInt8) : lib.toJson .u8 n = .nat n.toNat
  u16 (n : UInt16) : lib.toJson .u16 n = .nat n.toNat
  u64 (n : UInt64) : lib.toJson .u64 n = .nat n.toNat
  string (s : String) : lib.toJson .string s = .text s
  list (t : Ty) (vs : List t.Val) : lib.toJson (.list t) vs = .array (vs.map (lib.toJson t))
  absent (t : Ty) : lib.toJson (.option t) none = .null
  present (t : Ty) (v : t.Val) : lib.toJson (.option t) (some v) = lib.toJson t v
  record {d : Decl} (h : derived d) (row : d.Val) :
    lib.toJson d.ty row = .record (lib.entries d.members row)

/-- The name of each member stands once in the object, and what is behind it is read as the member's
value. -/
def Holds (object : List (String × Json)) : (members : List (Member Ty)) → Row members → Prop
  | [], _ => True
  | ⟨name?, t, marked⟩ :: ms, (v, row) =>
    (∃ j, Json.Once object (Member.key ⟨name?, t, marked⟩) j ∧ lib.ofJson? t j = some v) ∧
      Holds object ms row

/-- Forms read numbers that are in range, strings, arrays whose items they read, null as what is
absent and anything else as present, and objects that hold a record's members, in any order and with
any others beside them. -/
structure ReadsForms (derived : Decl → Prop) : Prop where
  u8 {n : Nat} (h : n < UInt8.size) : lib.ofJson? .u8 (.nat n) = some (UInt8.ofNat n)
  u16 {n : Nat} (h : n < UInt16.size) : lib.ofJson? .u16 (.nat n) = some (UInt16.ofNat n)
  u64 {n : Nat} (h : n < UInt64.size) : lib.ofJson? .u64 (.nat n) = some (UInt64.ofNat n)
  string (s : String) : lib.ofJson? .string (.text s) = some s
  list (t : Ty) {items : List Json} {vs : List t.Val} (h : items.mapM (lib.ofJson? t) = some vs) :
    lib.ofJson? (.list t) (.array items) = some vs
  absent (t : Ty) : lib.ofJson? (.option t) .null = some none
  present (t : Ty) {j : Json} (h : j ≠ .null) :
    lib.ofJson? (.option t) j = some <$> lib.ofJson? t j
  record {d : Decl} (h : derived d) {object : List (String × Json)} {row : d.Val}
    (hrow : lib.Holds object d.members row) : lib.ofJson? d.ty (.record object) = some row

/-- JSON is printed without blanks, with numbers in decimal, and with no more escapes in a string
than it needs. -/
structure PrintsCompact : Prop where
  null : lib.print .null = ['n', 'u', 'l', 'l']
  nat {n : Nat} (h : n < UInt64.size) : lib.print (.nat n) = Nat.toDigits 10 n
  text (s : String) : lib.print (.text s) = '"' :: (s.toList.flatMap Quoted.escapeChar ++ ['"'])
  array (items : List Json) :
    lib.print (.array items) = '[' :: ([','].intercalate (items.map lib.print) ++ [']'])
  record (members : List (String × Json)) :
    lib.print (.record members) =
      '\x7b' :: ([','].intercalate (members.map fun (key, j) =>
        lib.print (.text key) ++ ':' :: lib.print j) ++ ['\x7d'])

/-- Standard JSON is read, unless its arrays and objects nest too deep. -/
structure ReadsStandard : Prop where
  read {text : List Char} {j : Json} (h : Json.Standard 127 text j) : lib.read? text = some j

/-! ## Records -/

section

variable {α : Type} [Record α]

def write (a : α) : List Char := lib.print (lib.toJson (Record.decl α).ty (Record.toRow a))

def parse? (text : List Char) : Option α := do
  let j ← lib.read? text
  Record.ofRow <$> lib.ofJson? (Record.decl α).ty j

end

/-! ## A library -/

def plain : JsonLibrary where
  toJson := Ty.toJson
  ofJson? := Ty.ofJson?
  print := Json.render
  read? := Json.parse

end JsonLibrary

end PeerWire
