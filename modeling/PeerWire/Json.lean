import PeerWire.Json.Numeral
import PeerWire.Json.Quoted

/-!
# JSON

JSON values as a text spells them: the members of an object stay in the order of the text, also
those that share a key, and whoever reads an object decides what to make of that. A value is written
without blanks.
-/

namespace PeerWire

inductive Json where
  | null
  | bool (b : Bool)
  | number (n : Numeral)
  | string (atoms : List Quoted.Atom)
  | array (items : List Json)
  | object (members : List (List Quoted.Atom × Json))
  deriving Inhabited

namespace Json

def nat (n : Nat) : Json := number (.natural n)

def text (s : String) : Json := string (Quoted.ofText s)

/-- An object whose keys are text. -/
def record (members : List (String × Json)) : Json :=
  object (members.map fun (key, j) => (Quoted.ofText key, j))

/-! ## Writing -/

mutual
def render : Json → List Char
  | null => ['n', 'u', 'l', 'l']
  | bool true => ['t', 'r', 'u', 'e']
  | bool false => ['f', 'a', 'l', 's', 'e']
  | number n => n.render
  | string atoms => Quoted.render atoms
  | array items => '[' :: (renderItems items ++ [']'])
  | object members => '{' :: (renderMembers members ++ ['}'])
def renderItems : List Json → List Char
  | [] => []
  | [j] => j.render
  | j :: js => j.render ++ ',' :: renderItems js
def renderMembers : List (List Quoted.Atom × Json) → List Char
  | [] => []
  | [(key, j)] => Quoted.render key ++ ':' :: j.render
  | (key, j) :: ms => Quoted.render key ++ ':' :: (j.render ++ ',' :: renderMembers ms)
end

/-! ## Reading -/

/-- A key, a colon and a value. -/
def member (value : Scan Json) : Scan (List Quoted.Atom × Json) := fun s =>
  match Scan.skipBlanks s with
  | '"' :: s => do
    let (key, s) ← Quoted.scan s
    match Scan.skipBlanks s with
    | ':' :: s => do
      let (j, s) ← value s
      some ((key, j), s)
    | _ => none
  | _ => none

/-- A value. The bound is on how deep arrays and objects nest and on how many items each of them
holds, so one more than the number of characters is always enough. -/
def value (bound : Nat) : Scan Json := fun s =>
  match bound with
  | 0 => none
  | bound + 1 =>
    match Scan.skipBlanks s with
    | 'n' :: 'u' :: 'l' :: 'l' :: s => some (null, s)
    | 't' :: 'r' :: 'u' :: 'e' :: s => some (bool true, s)
    | 'f' :: 'a' :: 'l' :: 's' :: 'e' :: s => some (bool false, s)
    | '"' :: s => do
      let (atoms, s) ← Quoted.scan s
      some (string atoms, s)
    | '[' :: s => do
      let (items, s) ← Scan.list (value bound) ']' bound s
      some (array items, s)
    | '{' :: s => do
      let (members, s) ← Scan.list (member (value bound)) '}' bound s
      some (object members, s)
    | s => do
      let (n, s) ← Numeral.scan s
      some (number n, s)

/-- Reads a text that is one value. -/
def parse (s : List Char) : Option Json := Scan.whole (value (s.length + 1)) s

end Json

end PeerWire
