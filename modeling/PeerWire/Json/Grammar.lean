import PeerWire.Json

/-!
# Standard JSON

Which texts are JSON, and of which value. A relation between a text, a value and a rest says that
the text begins with a spelling of the value and goes on with the rest. Between tokens there may be
blanks, and a string has many spellings; the members of an object stay in the order of the text. Of
numbers only those are here that fit in 64 bits without sign, fraction or exponent.
-/

namespace PeerWire.Json

/-- Any number of blanks. -/
inductive Blanks : (text rest : List Char) → Prop where
  | none {s : List Char} : Blanks s s
  | more {c : Char} {s rest : List Char} :
    Scan.isBlank c = true → Blanks s rest → Blanks (c :: s) rest

/-- Characters up to the closing quote: as they are, behind a backslash, or as the code units of
UTF-16 that spell them. -/
inductive Quotation : (text characters rest : List Char) → Prop where
  | close {rest : List Char} : Quotation ('"' :: rest) [] rest
  | plain {c : Char} {s cs rest : List Char} : c ≠ '"' → c ≠ '\\' → 0x20 ≤ c.toNat →
    Quotation s cs rest → Quotation (c :: s) (c :: cs) rest
  | escape {e c : Char} {s cs rest : List Char} : Quoted.unescape? e = some c →
    Quotation s cs rest → Quotation ('\\' :: e :: s) (c :: cs) rest
  | unit {a b c d : Char} {unit : Nat} {s cs rest : List Char} :
    Quoted.unit? a b c d = some unit → unit < 0xD800 ∨ 0xE000 ≤ unit →
    Quotation s cs rest →
    Quotation ('\\' :: 'u' :: a :: b :: c :: d :: s) (Char.ofNat unit :: cs) rest
  | pair {a b c d a' b' c' d' : Char} {high low : Nat} {s cs rest : List Char} :
    Quoted.unit? a b c d = some high → 0xD800 ≤ high → high < 0xDC00 →
    Quoted.unit? a' b' c' d' = some low → 0xDC00 ≤ low → low < 0xE000 →
    Quotation s cs rest →
    Quotation
      ('\\' :: 'u' :: a :: b :: c :: d :: '\\' :: 'u' :: a' :: b' :: c' :: d' :: s)
      (Quoted.joined high low :: cs) rest

section

variable {α : Type} (item : List Char → α → List Char → Prop) (close : Char)

/-- One item or more, with commas between them and a mark behind the last. -/
inductive Items : (text : List Char) → List α → (rest : List Char) → Prop where
  | last {s s₁ s₂ rest : List Char} {a : α} :
    Blanks s s₁ → item s₁ a s₂ → Blanks s₂ (close :: rest) → Items s [a] rest
  | more {s s₁ s₂ s₃ rest : List Char} {a : α} {as : List α} :
    Blanks s s₁ → item s₁ a s₂ → Blanks s₂ (',' :: s₃) → Items s₃ as rest →
    Items s (a :: as) rest

/-- Items up to a closing mark, or none. -/
inductive Listed : (text : List Char) → List α → (rest : List Char) → Prop where
  | empty {s rest : List Char} : Blanks s (close :: rest) → Listed s [] rest
  | items {s rest : List Char} {as : List α} : Items item close s as rest → Listed s as rest

end

section

variable (part : List Char → Json → List Char → Prop)

/-- A key, a colon and a value. -/
inductive Entry : (text : List Char) → List Quoted.Atom × Json → (rest : List Char) → Prop where
  | mk {s s₁ s₂ s₃ key rest : List Char} {j : Json} :
    Quotation s key s₁ → Blanks s₁ (':' :: s₂) → Blanks s₂ s₃ → part s₃ j rest →
    Entry ('"' :: s) (key.map .char, j) rest

/-- A value with its parts. -/
inductive Level : (text : List Char) → Json → (rest : List Char) → Prop where
  | null {rest : List Char} : Level ('n' :: 'u' :: 'l' :: 'l' :: rest) .null rest
  | true {rest : List Char} : Level ('t' :: 'r' :: 'u' :: 'e' :: rest) (.bool true) rest
  | false {rest : List Char} : Level ('f' :: 'a' :: 'l' :: 's' :: 'e' :: rest) (.bool false) rest
  | number {n : Nat} {rest : List Char} : n < UInt64.size →
    Level (Nat.toDigits 10 n ++ rest) (.nat n) rest
  | string {s cs rest : List Char} : Quotation s cs rest →
    Level ('"' :: s) (.text (String.ofList cs)) rest
  | array {s rest : List Char} {items : List Json} :
    Listed part ']' s items rest → Level ('[' :: s) (.array items) rest
  | object {s rest : List Char} {members : List (List Quoted.Atom × Json)} :
    Listed (Entry part) '}' s members rest → Level ('\x7b' :: s) (.object members) rest

end

/-- A value of at most as many levels, one inside the other. -/
def Spells : (levels : Nat) → (text : List Char) → Json → (rest : List Char) → Prop
  | 0 => fun _ _ _ => False
  | levels + 1 => Level (Spells levels)

/-- The text is a value of at most as many levels, with blanks around it. -/
def Standard (levels : Nat) (text : List Char) (j : Json) : Prop :=
  ∃ s rest, Blanks text s ∧ Spells levels s j rest ∧ Blanks rest []

end PeerWire.Json
