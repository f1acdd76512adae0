import PeerWire.Text.Scan

/-!
# Numerals

The numbers of JSON. Whole numbers without a sign are read as what they are. All others, with a
sign, a fraction or an exponent, are checked and kept as they are written: nothing here computes
with them, and a minus in front of a zero already makes a number that is no natural.
-/

namespace PeerWire

inductive Numeral where
  | natural (n : Nat)
  | other (lexeme : List Char)
  deriving DecidableEq, Repr

namespace Numeral

def render : Numeral → List Char
  | natural n => Nat.toDigits 10 n
  | other lexeme => lexeme

/-! ## Parts -/

/-- At least one digit. -/
def digits : Scan (List Char)
  | [] => none
  | c :: s =>
    if c.isDigit then some (c :: s.takeWhile Char.isDigit, s.dropWhile Char.isDigit) else none

/-- Digits with no zero in front of others. -/
def whole : Scan (List Char)
  | '0' :: s => some (['0'], s)
  | s => digits s

/-- A point and digits, or nothing. -/
def fraction : Scan (List Char)
  | '.' :: s => do
    let (ds, s) ← digits s
    some ('.' :: ds, s)
  | s => some ([], s)

def sign : List Char → List Char × List Char
  | '+' :: s => (['+'], s)
  | '-' :: s => (['-'], s)
  | s => ([], s)

/-- The letter e in either case with digits and perhaps a sign, or nothing. -/
def exponent : Scan (List Char)
  | [] => some ([], [])
  | c :: s =>
    if c = 'e' ∨ c = 'E' then do
      let (mark, s) := sign s
      let (ds, s) ← digits s
      some (c :: (mark ++ ds), s)
    else some ([], c :: s)

/-! ## Numerals -/

/-- A numeral without its sign, in the parts of its lexeme. -/
def unsigned : Scan (List Char × List Char) := fun s => do
  let (ds, s) ← whole s
  let (fractional, s) ← fraction s
  let (power, s) ← exponent s
  some ((ds, fractional ++ power), s)

def scan : Scan Numeral
  | '-' :: s => do
    let ((ds, tail), s) ← unsigned s
    some (other ('-' :: (ds ++ tail)), s)
  | s => do
    let ((ds, tail), s) ← unsigned s
    some (if tail.isEmpty then natural (Nat.ofDigitChars 10 ds 0) else other (ds ++ tail), s)

end Numeral

end PeerWire
