import PeerWire.Text.Scan

/-!
# Quoted text

Text between double quotes. A writer escapes the quote, the backslash and the control characters
below U+0020, and nothing else. A reader also knows the escapes that no writer needs, among them
`\u` and four digits for a UTF-16 code unit. Half of a surrogate pair stands for no character by
itself, so what is read is a list of atoms, and only atoms without such halves are text (`text?`).
-/

namespace PeerWire.Quoted

inductive Atom where
  | char (c : Char)
  | surrogate (unit : Nat)
  deriving DecidableEq, Repr

def ofText (s : String) : List Atom := s.toList.map .char

/-! ## Text -/

def chars? : List Atom → Option (List Char)
  | [] => some []
  | .char c :: atoms => (c :: ·) <$> chars? atoms
  | .surrogate _ :: _ => none

def text? (atoms : List Atom) : Option String := String.ofList <$> chars? atoms

theorem chars?_map_char (cs : List Char) : chars? (cs.map .char) = some cs := by
  induction cs with
  | nil => rfl
  | cons c cs ih => simp [chars?, ih]

@[simp] theorem text?_ofText (s : String) : text? (ofText s) = some s := by
  simp [text?, ofText, chars?_map_char]

/-! ## Writing -/

/-- Four hexadecimal digits, in lower case. -/
def hex (n : Nat) : List Char :=
  [Nat.digitChar (n / 4096 % 16), Nat.digitChar (n / 256 % 16), Nat.digitChar (n / 16 % 16),
    Nat.digitChar (n % 16)]

def escapeChar (c : Char) : List Char :=
  if c = '"' then ['\\', '"']
  else if c = '\\' then ['\\', '\\']
  else if c = '\x08' then ['\\', 'b']
  else if c = '\x0C' then ['\\', 'f']
  else if c = '\n' then ['\\', 'n']
  else if c = '\r' then ['\\', 'r']
  else if c = '\t' then ['\\', 't']
  else if c.toNat < 0x20 then '\\' :: 'u' :: hex c.toNat
  else [c]

def Atom.render : Atom → List Char
  | .char c => escapeChar c
  | .surrogate unit => '\\' :: 'u' :: hex unit

def render (atoms : List Atom) : List Char := '"' :: (atoms.flatMap Atom.render ++ ['"'])

/-! ## Reading -/

def hexDigit? (c : Char) : Option Nat :=
  if c.isDigit then some (c.toNat - '0'.toNat)
  else if 'a' ≤ c ∧ c ≤ 'f' then some (c.toNat - 'a'.toNat + 10)
  else if 'A' ≤ c ∧ c ≤ 'F' then some (c.toNat - 'A'.toNat + 10)
  else none

/-- The code unit that four hexadecimal digits spell. -/
def unit? (a b c d : Char) : Option Nat := do
  some (((← hexDigit? a) * 16 + (← hexDigit? b)) * 256 + ((← hexDigit? c) * 16 + (← hexDigit? d)))

/-- What a UTF-16 code unit stands for by itself. -/
def Atom.ofUnit (unit : Nat) : Atom :=
  if 0xD800 ≤ unit ∧ unit < 0xE000 then .surrogate unit else .char (Char.ofNat unit)

/-- What a character stands for behind a backslash. -/
def unescape? : Char → Option Char
  | '"' => some '"'
  | '\\' => some '\\'
  | '/' => some '/'
  | 'b' => some '\x08'
  | 'f' => some '\x0C'
  | 'n' => some '\n'
  | 'r' => some '\r'
  | 't' => some '\t'
  | _ => none

/-- The atoms up to the closing quote. -/
def body : Scan (List Atom)
  | [] => none
  | '"' :: s => some ([], s)
  | '\\' :: 'u' :: a :: b :: c :: d :: s => do
    let unit ← unit? a b c d
    let (atoms, s) ← body s
    some (Atom.ofUnit unit :: atoms, s)
  | '\\' :: e :: s => do
    let c ← unescape? e
    let (atoms, s) ← body s
    some (.char c :: atoms, s)
  | c :: s =>
    if c = '\\' ∨ c.toNat < 0x20 then none
    else do
      let (atoms, s) ← body s
      some (.char c :: atoms, s)

/-- The character that a high and a low surrogate stand for together. -/
def joined (high low : Nat) : Char :=
  Char.ofNat (0x10000 + (high - 0xD800) * 0x400 + (low - 0xDC00))

/-- Joins each high surrogate with the low one behind it. A half without its other half stays. -/
def join : List Atom → List Atom
  | .surrogate high :: .surrogate low :: atoms =>
    if high < 0xDC00 ∧ 0xDC00 ≤ low then .char (joined high low) :: join atoms
    else .surrogate high :: join (.surrogate low :: atoms)
  | a :: atoms => a :: join atoms
  | [] => []

/-- What stands behind an opening quote. -/
def scan : Scan (List Atom) := fun s => do
  let (atoms, s) ← body s
  some (join atoms, s)

end PeerWire.Quoted
