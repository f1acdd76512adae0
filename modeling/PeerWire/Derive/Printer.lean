import PeerWire.Derive.Expansion
import PeerWire.Text.GraphemeExtend

/-!
# Printed implementations

The code of an expansion, token by token with a blank between neighbours, the way Rust's token
printer spaces it: the implementation of the codec and that of the record description.
-/

namespace PeerWire.Derive

/-- One implementation, with its functions by name and the statements of each. -/
structure Impl where
  header : String
  functions : List (String × List String)
  deriving DecidableEq, Repr

def joined (parts : List String) : String := " , ".intercalate parts

/-! ## Headers -/

/-- A parameter where it is declared. Its default is not repeated. -/
def Param.declared : Param → String
  | .lifetime name bounds | .type name bounds _ =>
    if bounds = "" then name else name ++ " : " ++ bounds
  | .const name ty _ => "const " ++ name ++ " : " ++ ty

def Param.name : Param → String
  | .lifetime name _ | .type name _ _ | .const name _ _ => name

def Param.isLifetime : Param → Bool
  | .lifetime _ _ => true
  | _ => false

/-- The parameters with the lifetimes in front. -/
def lifetimesFirst (params : List Param) : List Param :=
  params.filter Param.isLifetime ++ params.filter (!·.isLifetime)

/-- Whether the last parameter is a lifetime that moves in front of others. Each of those keeps the
comma behind it, so the list then ends in one. -/
def endsInComma (params : List Param) : Bool :=
  params.getLast?.any Param.isLifetime && params.any (!·.isLifetime)

/-- The parameters between angle brackets, or nothing if there are none. -/
def angled (render : Param → String) (params : List Param) : List String :=
  if params.isEmpty then []
  else
    ["<", joined ((lifetimesFirst params).map render)] ++
      (if endsInComma params then [",", ">"] else [">"])

def Expansion.header (x : Expansion) (interface : String) : String :=
  let conditions := if x.conditions.isEmpty then [] else ["where", joined x.conditions]
  " ".intercalate <|
    ["impl"] ++ angled Param.declared x.params ++ [interface, "for", x.name] ++
      angled Param.name x.params ++ conditions ++ ["\x7b \x7d"]

/-! ## Bodies -/

def codec : String := ":: streamable :: Streamable"

def recordInterface : String := ":: streamable :: Record"

def Source.render : Source → String
  | .bound variableName => variableName
  | .default => ":: core :: default :: Default :: default ()"

def Construction.render : Construction → String
  | .named [] => "Self \x7b \x7d"
  | .named values =>
    "Self \x7b " ++ joined (values.map fun (name, v) => name ++ " : " ++ v.render) ++ " \x7d"
  | .tuple values => "Self (" ++ joined (values.map Source.render) ++ ")"
  | .unit => "Self"

def decodeStatement (variableName ty : String) : String :=
  "let " ++ variableName ++ " = < " ++ ty ++ " as " ++ codec ++ " > :: decode (dec) ? ;"

def encodeStatement (label : Label) : String :=
  codec ++ " :: encode (& self . " ++ label.text ++ " , enc) ? ;"

/-- The halfwidth voiced and semi-voiced sound marks of Katakana. They have the property of
extending the character before them, but as letters that fill a column of their own. -/
def isHalfwidthSoundMark (c : Char) : Bool := c = '\uFF9E' || c = '\uFF9F'

/-- Whether a character of a name cannot be told apart by sight: it is drawn onto the character
before it, or it is the zero-width joiner. -/
def isHidden (c : Char) : Bool :=
  GraphemeExtend.contains c && !isHalfwidthSoundMark c || c = '\u200D'

/-- A character of a name in a string literal. A hidden one is spelled by its code point; names hold
nothing else to escape. -/
def literalChar (c : Char) : List Char :=
  if isHidden c then ['\\', 'u', '\x7b'] ++ Nat.toDigits 16 c.toNat ++ ['\x7d'] else [c]

/-- A name as a string literal. -/
def literal (name : String) : String :=
  "\"" ++ String.ofList (name.toList.flatMap literalChar) ++ "\""

def Descriptor.render (d : Descriptor) : String :=
  ":: streamable :: FieldDescriptor :: new (" ++ literal d.name ++ " , " ++ toString d.position ++
    "usize , < " ++ d.ty ++ " as " ++ codec ++ " > :: kind () ,)"

def Expansion.codecImpl (x : Expansion) : Impl where
  header := x.header codec
  functions := [
    ("decode",
      x.decodes.map (fun (v, ty) => decodeStatement v ty) ++
        ["Ok (" ++ x.construction.render ++ ")"]),
    ("encode", x.encodes.map encodeStatement ++ ["Ok (())"]),
    ("kind", ["< Self as " ++ recordInterface ++ " > :: record_kind ()"])]

def Expansion.recordImpl (x : Expansion) : Impl where
  header := x.header recordInterface
  functions := [
    ("type_name", [literal x.name]),
    ("fields", [":: std :: vec ! [" ++ joined (x.descriptors.map Descriptor.render) ++ "]"])]

def Expansion.impls (x : Expansion) : List Impl := [x.codecImpl, x.recordImpl]

end PeerWire.Derive
