import Mathlib.Data.List.Basic
import PeerWire.Proofs.Text

/-!
# What repair does to bytes

The scanner takes its input apart without losing a byte: `Spelling ps bs` says how the pieces `ps`
make up the bytes `bs`. What carries the proof is the meaning of a sequence under way: whichever
continuation the machine lets pass, the bytes taken so far and the continuation are together the
UTF-8 of the character that the machine arrives at (`Pending.Begun`).

A rejected piece has at most three bytes and U+FFFD is written with three, so repair never shortens
a text (`length_le_encode_decodeLossy`), and it leaves exactly the bytes without a defect as they
are (`defect?_eq_none_iff`).
-/

namespace PeerWire.Utf8

/-! ## Sequences under way -/

/-- The value of a sequence after one more continuation byte. -/
def extend (value : Nat) (b : UInt8) : Nat := value * 64 + (b.toNat - 0x80)

theorem step_completed {p : Pending} {b : UInt8} (hin : p.low ≤ b ∧ b ≤ p.high)
    (hmore : p.more = 0) :
    step (some p) b = ([.char (Char.ofNat (extend p.value b))], none) := by
  rw [step, if_pos hin, hmore]
  rfl

theorem step_continued {p : Pending} {b : UInt8} (hin : p.low ≤ b ∧ b ≤ p.high) {more : Nat}
    (hmore : p.more = more + 1) :
    step (some p) b = ([], some ⟨p.taken + 1, more, 0x80, 0xBF, extend p.value b⟩) := by
  rw [step, if_pos hin, hmore]
  rfl

theorem step_broken {p : Pending} {b : UInt8} (hout : ¬ (p.low ≤ b ∧ b ≤ p.high)) :
    step (some p) b = (.broken p.taken :: (begin b).1, (begin b).2) := by
  rw [step, if_neg hout]

/-- The bytes `taken` are those of the sequence so far. -/
structure Pending.Begun (p : Pending) (taken : Bytes) : Prop where
  length_eq : taken.length = p.taken
  length_pos : 1 ≤ p.taken
  length_le : p.taken + p.more ≤ 3
  spelled {b : UInt8} {bs : Bytes} (hlow : p.low ≤ b) (hhigh : b ≤ p.high)
    (hlen : bs.length = p.more) (hbs : ∀ b ∈ bs, 0x80 ≤ b ∧ b ≤ 0xBF) :
    String.utf8EncodeChar (Char.ofNat ((b :: bs).foldl extend p.value)) = taken ++ b :: bs

theorem Pending.Begun.bounds {p : Pending} {taken : Bytes} (h : p.Begun taken) :
    1 ≤ taken.length ∧ taken.length ≤ 3 := by
  have hpos := h.length_pos
  have hle := h.length_le
  have heq := h.length_eq
  omega

theorem Pending.Begun.continued {p : Pending} {taken : Bytes} (h : p.Begun taken) {b : UInt8}
    (hlow : p.low ≤ b) (hhigh : b ≤ p.high) {more : Nat} (hmore : p.more = more + 1) :
    Pending.Begun ⟨p.taken + 1, more, 0x80, 0xBF, extend p.value b⟩
      (taken ++ [b]) where
  length_eq := by rw [List.length_append, h.length_eq, List.length_singleton]
  length_pos := Nat.le_add_left 1 p.taken
  length_le := by
    have hle := h.length_le
    dsimp only
    omega
  spelled := by
    intro b' bs hlow' hhigh' hlen hbs
    have hall : ∀ x ∈ b' :: bs, 0x80 ≤ x ∧ x ≤ 0xBF := fun x hx => by
      rcases List.mem_cons.1 hx with rfl | hx
      · exact ⟨hlow', hhigh'⟩
      · exact hbs x hx
    have hlen' : (b' :: bs).length = p.more := by
      rw [hmore, List.length_cons, hlen]
    have hspelled := h.spelled hlow hhigh hlen' hall
    rw [List.foldl_cons] at hspelled
    rw [hspelled, List.append_assoc, List.singleton_append]

theorem Pending.Begun.completed {p : Pending} {taken : Bytes} (h : p.Begun taken) {b : UInt8}
    (hlow : p.low ≤ b) (hhigh : b ≤ p.high) (hmore : p.more = 0) :
    String.utf8EncodeChar (Char.ofNat (extend p.value b)) = taken ++ [b] := by
  have hlast : ([] : Bytes).length = p.more := hmore.symm
  have hspelled := h.spelled hlow hhigh hlast fun _ hx => by cases hx
  rwa [List.foldl_cons, List.foldl_nil] at hspelled

theorem toNat_val_ofNat {v : Nat} (h : v < 0xD800 ∨ 0xDFFF < v ∧ v < 0x110000) :
    (Char.ofNat v).val.toNat = v := by
  unfold Char.ofNat
  rw [dif_pos h]
  rfl

theorem ofNat_eq {n : Nat} {b : UInt8} (h : n = b.toNat) : UInt8.ofNat n = b := by
  rw [h, UInt8.ofNat_toNat]

theorem toNat_bounds {low high b : UInt8} (h : low ≤ b ∧ b ≤ high) :
    low.toNat ≤ b.toNat ∧ b.toNat ≤ high.toNat :=
  ⟨UInt8.le_iff_toNat_le.1 h.1, UInt8.le_iff_toNat_le.1 h.2⟩

theorem begun_two {b : UInt8} (hb : 0xC2 ≤ b.toNat) (hb' : b.toNat < 0xE0) :
    Pending.Begun ⟨1, 0, 0x80, 0xBF, b.toNat - 0xC0⟩ [b] where
  length_eq := rfl
  length_pos := Nat.le_refl 1
  length_le := Nat.le_add_left 1 2
  spelled := by
    intro x bs hlow hhigh hlen _
    obtain rfl := List.length_eq_zero_iff.1 hlen
    obtain ⟨hx, hx'⟩ : 0x80 ≤ x.toNat ∧ x.toNat ≤ 0xBF := toNat_bounds ⟨hlow, hhigh⟩
    rw [List.foldl_cons, List.foldl_nil]
    unfold String.utf8EncodeChar
    dsimp only [extend]
    rw [toNat_val_ofNat (by omega)]
    rw [if_neg (by omega), if_pos (by omega), ofNat_eq (b := b) (by omega),
      ofNat_eq (b := x) (by omega), List.singleton_append]

/-- The bounds on the second byte keep out overlong forms and surrogates. -/
theorem begun_three {b low high : UInt8} {value : Nat} (hb : b.toNat = value + 0xE0)
    (hvalue : value < 16) (hlow : 0x80 ≤ low.toNat) (hhigh : high.toNat ≤ 0xBF)
    (hoverlong : value = 0 → 0xA0 ≤ low.toNat) (hsurrogate : value = 13 → high.toNat ≤ 0x9F) :
    Pending.Begun ⟨1, 1, low, high, value⟩ [b] where
  length_eq := rfl
  length_pos := Nat.le_refl 1
  length_le := Nat.le_add_left 2 1
  spelled := by
    intro x bs hxlow hxhigh hlen hbs
    obtain ⟨y, rfl⟩ := List.length_eq_one_iff.1 hlen
    obtain ⟨hx, hx'⟩ : low.toNat ≤ x.toNat ∧ x.toNat ≤ high.toNat :=
      toNat_bounds ⟨hxlow, hxhigh⟩
    obtain ⟨hy, hy'⟩ : 0x80 ≤ y.toNat ∧ y.toNat ≤ 0xBF := toNat_bounds (hbs y List.mem_cons_self)
    rw [List.foldl_cons, List.foldl_cons, List.foldl_nil]
    unfold String.utf8EncodeChar
    dsimp only [extend]
    rw [toNat_val_ofNat (by omega)]
    rw [if_neg (by omega), if_neg (by omega), if_pos (by omega), ofNat_eq (b := b) (by omega),
      ofNat_eq (b := x) (by omega), ofNat_eq (b := y) (by omega), List.singleton_append]

theorem begun_four {b low high : UInt8} {value : Nat} (hb : b.toNat = value + 0xF0)
    (hvalue : value < 5) (hlow : 0x80 ≤ low.toNat) (hhigh : high.toNat ≤ 0xBF)
    (hoverlong : value = 0 → 0x90 ≤ low.toNat) (hbeyond : value = 4 → high.toNat ≤ 0x8F) :
    Pending.Begun ⟨1, 2, low, high, value⟩ [b] where
  length_eq := rfl
  length_pos := Nat.le_refl 1
  length_le := Nat.le_refl 3
  spelled := by
    intro x bs hxlow hxhigh hlen hbs
    obtain ⟨y, z, rfl⟩ := List.length_eq_two.1 hlen
    obtain ⟨hx, hx'⟩ : low.toNat ≤ x.toNat ∧ x.toNat ≤ high.toNat :=
      toNat_bounds ⟨hxlow, hxhigh⟩
    obtain ⟨hy, hy'⟩ : 0x80 ≤ y.toNat ∧ y.toNat ≤ 0xBF := toNat_bounds (hbs y List.mem_cons_self)
    obtain ⟨hz, hz'⟩ : 0x80 ≤ z.toNat ∧ z.toNat ≤ 0xBF :=
      toNat_bounds (hbs z (List.mem_cons_of_mem _ List.mem_cons_self))
    rw [List.foldl_cons, List.foldl_cons, List.foldl_cons, List.foldl_nil]
    unfold String.utf8EncodeChar
    dsimp only [extend]
    rw [toNat_val_ofNat (by omega)]
    rw [if_neg (by omega), if_neg (by omega), if_neg (by omega), ofNat_eq (b := b) (by omega),
      ofNat_eq (b := x) (by omega), ofNat_eq (b := y) (by omega), ofNat_eq (b := z) (by omega),
      List.singleton_append]

theorem begun_of_lead {b : UInt8} {p : Pending} (h : start b = .lead p) : p.Begun [b] := by
  unfold start at h
  simp only [UInt8.lt_iff_toNat_lt, UInt8.toNat_ofNat, ← UInt8.toNat_inj] at h
  split at h
  · cases h
  split at h
  · cases h
  split at h
  · cases h
    exact begun_two (by omega) (by omega)
  split at h
  · cases h
    exact begun_three (by omega) (by omega) (by decide) (by decide) (by decide) (by decide)
  split at h
  · cases h
    exact begun_three (by omega) (by omega) (by decide) (by decide) (by decide) (by decide)
  split at h
  · cases h
    exact begun_three (by omega) (by omega) (by decide) (by decide) (by omega) (by omega)
  split at h
  · cases h
    exact begun_four (by omega) (by omega) (by decide) (by decide) (by decide) (by decide)
  split at h
  · cases h
    exact begun_four (by omega) (by omega) (by decide) (by decide) (by omega) (by omega)
  split at h
  · cases h
    exact begun_four (by omega) (by omega) (by decide) (by decide) (by decide) (by decide)
  · cases h

theorem utf8EncodeChar_of_single {b : UInt8} {c : Char} (h : start b = .single c) :
    String.utf8EncodeChar c = [b] := by
  unfold start at h
  split at h
  · rename_i hb
    have hb' : b.toNat < 0x80 := UInt8.lt_iff_toNat_lt.1 hb
    cases h
    unfold String.utf8EncodeChar
    rw [toNat_val_ofNat (by omega)]
    dsimp only
    rw [if_pos (by omega), UInt8.ofNat_toNat]
  · -- All other bytes begin a longer sequence or nothing.
    grind

/-! ## Pieces -/

/-- The bytes are those of the pieces, one after the other. -/
inductive Spelling : List Piece → Bytes → Prop where
  | nil : Spelling [] []
  | char (c : Char) {ps : List Piece} {bs : Bytes} (h : Spelling ps bs) :
      Spelling (.char c :: ps) (String.utf8EncodeChar c ++ bs)
  | broken {w : Bytes} (hpos : 1 ≤ w.length) (hle : w.length ≤ 3) {ps : List Piece} {bs : Bytes}
      (h : Spelling ps bs) : Spelling (.broken w.length :: ps) (w ++ bs)
  | cut {w : Bytes} (hpos : 1 ≤ w.length) (hle : w.length ≤ 3) : Spelling [.cut w.length] w

/-- What the machine has taken without having ended a piece. -/
def UnderWay : Option Pending → Bytes → Prop
  | none, taken => taken = []
  | some p, taken => p.Begun taken

section

variable {bs : Bytes}

/-- The first byte of a character, where the bytes after it are known to be spelled. -/
theorem spelling_begin (ih : ∀ {s taken}, UnderWay s taken → Spelling (scanFrom s bs) (taken ++ bs))
    (b : UInt8) : Spelling ((begin b).1 ++ scanFrom (begin b).2 bs) (b :: bs) := by
  have hfree : Spelling (scanFrom none bs) bs := ih (s := none) rfl
  unfold begin
  cases h : start b with
  | single c =>
    have hchar := Spelling.char c hfree
    rwa [utf8EncodeChar_of_single h] at hchar
  | lead p => exact ih (s := some p) (begun_of_lead h)
  | unfit => exact Spelling.broken (w := [b]) (Nat.le_refl 1) (Nat.le_add_left 1 2) hfree

theorem spelling_scanFrom (bs : Bytes) {s : Option Pending} {taken : Bytes}
    (h : UnderWay s taken) : Spelling (scanFrom s bs) (taken ++ bs) := by
  induction bs generalizing s taken with
  | nil =>
    cases s with
    | none =>
      obtain rfl := h
      exact .nil
    | some p =>
      rw [scanFrom, List.append_nil, ← h.length_eq]
      exact .cut h.bounds.1 h.bounds.2
  | cons b bs ih =>
    cases s with
    | none =>
      obtain rfl := h
      exact spelling_begin ih b
    | some p =>
      rw [scanFrom]
      by_cases hin : p.low ≤ b ∧ b ≤ p.high
      · cases hmore : p.more with
        | zero =>
          have hspelled := Spelling.char (Char.ofNat (extend p.value b)) (ih (s := none) rfl)
          rw [h.completed hin.1 hin.2 hmore, List.append_assoc] at hspelled
          rw [step_completed hin hmore]
          exact hspelled
        | succ more =>
          have hspelled := ih (s := some _) (h.continued hin.1 hin.2 hmore)
          rw [List.append_assoc] at hspelled
          rw [step_continued hin hmore]
          exact hspelled
      · rw [step_broken hin, ← h.length_eq]
        exact .broken h.bounds.1 h.bounds.2 (spelling_begin ih b)

end

theorem spelling_scan (bs : Bytes) : Spelling (scan bs) bs := spelling_scanFrom bs (s := none) rfl

/-! ## Repair -/

theorem Spelling.length_le {ps : List Piece} {bs : Bytes} (h : Spelling ps bs) :
    bs.length ≤ (encode (String.ofList (ps.map Piece.repaired))).length := by
  have hrepaired : (String.utf8EncodeChar '\uFFFD').length = 3 := rfl
  induction h with
  | nil => exact Nat.zero_le _
  | char c h ih =>
    rw [List.map_cons, encode_ofList_cons, List.length_append, List.length_append]
    exact Nat.add_le_add_left ih _
  | broken hpos hle h ih =>
    rw [List.map_cons, encode_ofList_cons, List.length_append, List.length_append, Piece.repaired,
      hrepaired]
    omega
  | cut hpos hle =>
    rw [List.map_cons, encode_ofList_cons, List.length_append, Piece.repaired, hrepaired]
    omega

theorem Spelling.encode_eq {ps : List Piece} {bs : Bytes} (h : Spelling ps bs) {offset : Nat}
    (hd : defectFrom offset ps = none) :
    encode (String.ofList (ps.map Piece.repaired)) = bs := by
  induction h generalizing offset with
  | nil => exact encode_empty
  | char c h ih => rw [List.map_cons, encode_ofList_cons, Piece.repaired, ih hd]
  | broken hpos hle h ih => cases hd
  | cut hpos hle => cases hd

/-- Repair never shortens a text. -/
theorem length_le_encode_decodeLossy (bs : Bytes) :
    bs.length ≤ (encode (decodeLossy bs)).length := (spelling_scan bs).length_le

/-- The bytes that repair leaves as they are. -/
theorem defect?_eq_none_iff {bs : Bytes} : defect? bs = none ↔ encode (decodeLossy bs) = bs := by
  constructor
  · exact fun h => (spelling_scan bs).encode_eq h
  · intro h
    rw [← h]
    exact defect?_encode _

end PeerWire.Utf8
