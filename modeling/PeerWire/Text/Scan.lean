/-!
# Scans

A scan takes a thing off the front of a text and leaves the rest. Scans skip blanks in front of
what they take, never behind it.
-/

namespace PeerWire

abbrev Scan (α : Type) := List Char → Option (α × List Char)

namespace Scan

variable {α : Type}

/-- Space, tab, line feed and carriage return. -/
def isBlank (c : Char) : Bool := c = ' ' || c = '\t' || c = '\n' || c = '\r'

def skipBlanks (s : List Char) : List Char := s.dropWhile isBlank

/-- One item or more, but at most `bound`, with commas between them and a mark after the last. -/
def items (item : Scan α) (close : Char) : (bound : Nat) → Scan (List α)
  | 0, _ => none
  | bound + 1, s => do
    let (a, s) ← item s
    match skipBlanks s with
    | ',' :: s =>
      let (as, s) ← items item close bound s
      some (a :: as, s)
    | c :: s => if c = close then some ([a], s) else none
    | [] => none

/-- At most `bound` items up to a closing mark. -/
def list (item : Scan α) (close : Char) (bound : Nat) : Scan (List α) := fun s =>
  match skipBlanks s with
  | [] => none
  | c :: rest => if c = close then some ([], rest) else items item close bound s

/-- A scan that has to take the whole text but for blanks around it. -/
def whole (scan : Scan α) (s : List Char) : Option α := do
  let (a, rest) ← scan s
  if (skipBlanks rest).isEmpty then some a else none

end Scan

end PeerWire
