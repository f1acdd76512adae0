import PeerWire.Bytes

/-!
# UTF-8 with repair

Text on the wire is not checked by its writer, so reading never refuses bytes: each piece that is
not UTF-8 is read as one U+FFFD. A piece ends where no continuation could make it valid, so it is
either a single byte that begins nothing or the longest part of a sequence that was still
possible. Surrogates, overlong forms and values above U+10FFFF are ruled out by the range of the
second byte.

The scanner is a machine over bytes whose state is the sequence under way. Main statement: the scan
of joined bytes is the scan of the first part run on into the second (`scanFrom_append`).
-/

namespace PeerWire.Utf8

def encode (s : String) : Bytes := s.toList.flatMap String.utf8EncodeChar

@[simp] theorem encode_empty : encode "" = [] := by simp [encode]

/-! ## The scanner -/

/-- A multi-byte sequence under way: the next byte has to lie between `low` and `high`, and `more`
continuation bytes follow it. -/
structure Pending where
  taken : Nat
  more : Nat
  low : UInt8
  high : UInt8
  value : Nat
  deriving DecidableEq, Repr

/-- What a byte is at the start of a character. -/
inductive Start where
  | single (c : Char)
  | lead (p : Pending)
  | unfit
  deriving DecidableEq, Repr

def start (b : UInt8) : Start :=
  if b < 0x80 then .single (Char.ofNat b.toNat)
  else if b < 0xC2 then .unfit
  else if b < 0xE0 then .lead ⟨1, 0, 0x80, 0xBF, b.toNat - 0xC0⟩
  else if b = 0xE0 then .lead ⟨1, 1, 0xA0, 0xBF, 0⟩
  else if b = 0xED then .lead ⟨1, 1, 0x80, 0x9F, 0xD⟩
  else if b < 0xF0 then .lead ⟨1, 1, 0x80, 0xBF, b.toNat - 0xE0⟩
  else if b = 0xF0 then .lead ⟨1, 2, 0x90, 0xBF, 0⟩
  else if b < 0xF4 then .lead ⟨1, 2, 0x80, 0xBF, b.toNat - 0xF0⟩
  else if b = 0xF4 then .lead ⟨1, 2, 0x80, 0x8F, 4⟩
  else .unfit

/-- A stretch of the input: a character, a sequence that the next byte breaks, or a sequence that
the end of the input cuts off. -/
inductive Piece where
  | char (c : Char)
  | broken (length : Nat)
  | cut (length : Nat)
  deriving DecidableEq, Repr

/-- The machine after the first byte of a character, with the pieces that it ends. -/
def begin (b : UInt8) : List Piece × Option Pending :=
  match start b with
  | .single c => ([.char c], none)
  | .lead p => ([], some p)
  | .unfit => ([.broken 1], none)

def step : Option Pending → UInt8 → List Piece × Option Pending
  | none, b => begin b
  | some p, b =>
    if p.low ≤ b ∧ b ≤ p.high then
      let value := p.value * 64 + (b.toNat - 0x80)
      match p.more with
      | 0 => ([.char (Char.ofNat value)], none)
      | more + 1 => ([], some ⟨p.taken + 1, more, 0x80, 0xBF, value⟩)
    else
      (.broken p.taken :: (begin b).1, (begin b).2)

def scanFrom : Option Pending → Bytes → List Piece
  | none, [] => []
  | some p, [] => [.cut p.taken]
  | s, b :: bs => (step s b).1 ++ scanFrom (step s b).2 bs

def scan (bs : Bytes) : List Piece := scanFrom none bs

/-! ## Repair -/

def Piece.repaired : Piece → Char
  | .char c => c
  | .broken _ => '\uFFFD'
  | .cut _ => '\uFFFD'

/-- The first place where bytes are not UTF-8: a rejected piece of some length, or `none` if the
input ends inside a sequence. -/
structure Defect where
  index : Nat
  length? : Option Nat
  deriving DecidableEq, Repr

def defectFrom : Nat → List Piece → Option Defect
  | _, [] => none
  | offset, .char c :: ps => defectFrom (offset + c.utf8Size) ps
  | offset, .broken n :: _ => some ⟨offset, some n⟩
  | offset, .cut _ :: _ => some ⟨offset, none⟩

def defect? (bs : Bytes) : Option Defect := defectFrom 0 (scan bs)

def decodeLossy (bs : Bytes) : String := String.ofList ((scan bs).map Piece.repaired)

def Defect.message (d : Defect) : String :=
  match d.length? with
  | some n => s!"invalid utf-8 sequence of {n} bytes from index {d.index}"
  | none => s!"incomplete utf-8 byte sequence from index {d.index}"

/-! ## The machine runs on -/

/-- The machine after some bytes, with the pieces that they end. -/
def run : Option Pending → Bytes → List Piece × Option Pending
  | s, [] => ([], s)
  | s, b :: bs => ((step s b).1 ++ (run (step s b).2 bs).1, (run (step s b).2 bs).2)

theorem scanFrom_append (s : Option Pending) (as bs : Bytes) :
    scanFrom s (as ++ bs) = (run s as).1 ++ scanFrom (run s as).2 bs := by
  induction as generalizing s with
  | nil => rfl
  | cons a as ih => cases s <;> simp [scanFrom, run, ih]

end PeerWire.Utf8
