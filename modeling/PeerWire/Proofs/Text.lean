import PeerWire.Text.Utf8

/-!
# Written text reads back

The scanner on the bytes that `Utf8.encode` writes. From between two characters it takes the bytes
of a character and stands between characters again (`run_utf8EncodeChar`); the bounds on the second
byte that shut out surrogates and overlong forms are met because a `Char` is neither. Main
statements: written text is read unchanged (`decodeLossy_encode`) and without a defect
(`defect?_encode`).
-/

namespace PeerWire.Utf8

/-! ## Lead bytes -/

theorem start_ascii : ∀ n < 128, start (UInt8.ofNat n) = .single (Char.ofNat n) := by decide +kernel

theorem start_two : ∀ x < 32, 2 ≤ x →
    start (UInt8.ofNat (x + 192)) = .lead ⟨1, 0, 0x80, 0xBF, x⟩ := by decide

theorem start_three : ∀ x < 16, start (UInt8.ofNat (x + 224)) =
    .lead ⟨1, 1, if x = 0 then 0xA0 else 0x80, if x = 13 then 0x9F else 0xBF, x⟩ := by decide

theorem start_four : ∀ x < 5, start (UInt8.ofNat (x + 240)) =
    .lead ⟨1, 2, if x = 0 then 0x90 else 0x80, if x = 4 then 0x8F else 0xBF, x⟩ := by decide

theorem step_of_lead {b : UInt8} {p : Pending} (h : start b = .lead p) :
    step none b = ([], some p) := by
  rw [step, begin, h]

theorem step_continuation {p : Pending} {x : Nat} (hx : x < 64) (hl : p.low.toNat ≤ x + 128)
    (hh : x + 128 ≤ p.high.toNat) :
    step (some p) (UInt8.ofNat (x + 128)) =
      match p.more with
      | 0 => ([.char (Char.ofNat (p.value * 64 + x))], none)
      | more + 1 => ([], some ⟨p.taken + 1, more, 0x80, 0xBF, p.value * 64 + x⟩) := by
  have hb : (UInt8.ofNat (x + 128)).toNat = x + 128 :=
    UInt8.toNat_ofNat_of_lt' (show x + 128 < 256 by omega)
  have hin : p.low ≤ UInt8.ofNat (x + 128) ∧ UInt8.ofNat (x + 128) ≤ p.high := by
    rw [UInt8.le_iff_toNat_le, UInt8.le_iff_toNat_le, hb]
    exact ⟨hl, hh⟩
  cases hm : p.more <;> simp only [step, if_pos hin, hb, hm, Nat.add_sub_cancel]

/-! ## Characters by length -/

theorem run_two {x y : Nat} (hx : x < 32) (hx' : 2 ≤ x) (hy : y < 64) :
    run none [UInt8.ofNat (x + 192), UInt8.ofNat (y + 128)] =
      ([.char (Char.ofNat (x * 64 + y))], none) := by
  have hlead : step none (UInt8.ofNat (x + 192)) = ([], some ⟨1, 0, 0x80, 0xBF, x⟩) :=
    step_of_lead (start_two x hx hx')
  have hlast := step_continuation (p := ⟨1, 0, 0x80, 0xBF, x⟩) hy (show 128 ≤ y + 128 by omega)
    (show y + 128 ≤ 191 by omega)
  simp only [run, hlead, hlast]
  rfl

theorem run_three {x y z : Nat} (hx : x < 16) (hy : y < 64) (hz : z < 64) (hlow : x = 0 → 32 ≤ y)
    (hhigh : x = 13 → y < 32) :
    run none [UInt8.ofNat (x + 224), UInt8.ofNat (y + 128), UInt8.ofNat (z + 128)] =
      ([.char (Char.ofNat ((x * 64 + y) * 64 + z))], none) := by
  have hlead := step_of_lead (start_three x hx)
  have hl : (if x = 0 then 0xA0 else 0x80 : UInt8).toNat ≤ y + 128 := by
    split
    · simp
      omega
    · simp
  have hh : y + 128 ≤ (if x = 13 then 0x9F else 0xBF : UInt8).toNat := by
    split
    · simp
      omega
    · simp
      omega
  have hmid := step_continuation (p := ⟨1, 1, if x = 0 then 0xA0 else 0x80,
    if x = 13 then 0x9F else 0xBF, x⟩) hy hl hh
  have hlast := step_continuation (p := ⟨2, 0, 0x80, 0xBF, x * 64 + y⟩) hz
    (show 128 ≤ z + 128 by omega) (show z + 128 ≤ 191 by omega)
  simp only [run, hlead, hmid, hlast]
  rfl

theorem run_four {x y z t : Nat} (hx : x < 5) (hy : y < 64) (hz : z < 64) (ht : t < 64)
    (hlow : x = 0 → 16 ≤ y) (hhigh : x = 4 → y < 16) :
    run none [UInt8.ofNat (x + 240), UInt8.ofNat (y + 128), UInt8.ofNat (z + 128),
        UInt8.ofNat (t + 128)] =
      ([.char (Char.ofNat (((x * 64 + y) * 64 + z) * 64 + t))], none) := by
  have hlead := step_of_lead (start_four x hx)
  have hl : (if x = 0 then 0x90 else 0x80 : UInt8).toNat ≤ y + 128 := by
    split
    · simp
      omega
    · simp
  have hh : y + 128 ≤ (if x = 4 then 0x8F else 0xBF : UInt8).toNat := by
    split
    · simp
      omega
    · simp
      omega
  have hsecond := step_continuation (p := ⟨1, 2, if x = 0 then 0x90 else 0x80,
    if x = 4 then 0x8F else 0xBF, x⟩) hy hl hh
  have hthird := step_continuation (p := ⟨2, 1, 0x80, 0xBF, x * 64 + y⟩) hz
    (show 128 ≤ z + 128 by omega) (show z + 128 ≤ 191 by omega)
  have hlast := step_continuation (p := ⟨3, 0, 0x80, 0xBF, (x * 64 + y) * 64 + z⟩) ht
    (show 128 ≤ t + 128 by omega) (show t + 128 ≤ 191 by omega)
  simp only [run, hlead, hsecond, hthird, hlast]
  rfl

theorem run_utf8EncodeChar (c : Char) : run none (String.utf8EncodeChar c) = ([.char c], none) := by
  have hc : Char.ofNat c.val.toNat = c := c.ofNat_toNat
  have hvalid : c.val.toNat < 0xD800 ∨ 0xDFFF < c.val.toNat ∧ c.val.toNat < 0x110000 := c.valid
  unfold String.utf8EncodeChar
  dsimp only
  generalize c.val.toNat = v at *
  subst hc
  split
  · have hlead : step none (UInt8.ofNat v) = ([.char (Char.ofNat v)], none) := by
      rw [step, begin, start_ascii v (by omega)]
    simp only [run, hlead, List.append_nil]
  split
  · rw [run_two (by omega) (by omega) (by omega)]
    congr 4
    omega
  split
  · rw [run_three (by omega) (by omega) (by omega) (by omega) (by omega)]
    congr 4
    omega
  · rw [run_four (by omega) (by omega) (by omega) (by omega) (by omega) (by omega)]
    congr 4
    omega

/-! ## Whole texts -/

theorem run_append (s : Option Pending) (as bs : Bytes) :
    run s (as ++ bs) = ((run s as).1 ++ (run (run s as).2 bs).1, (run (run s as).2 bs).2) := by
  induction as generalizing s with
  | nil => rfl
  | cons a as ih => rw [List.cons_append, run, run, ih, List.append_assoc]

/-- Between two characters nothing of the text before them is left. -/
theorem run_encode (s : String) : run none (encode s) = (s.toList.map Piece.char, none) := by
  unfold encode
  induction s.toList with
  | nil => rfl
  | cons c cs ih =>
    rw [List.flatMap_cons, run_append, run_utf8EncodeChar, ih]
    rfl

theorem scan_encode_append (s : String) (bs : Bytes) :
    scan (encode s ++ bs) = s.toList.map Piece.char ++ scan bs := by
  rw [scan, scanFrom_append, run_encode, scan]

theorem scan_encode (s : String) : scan (encode s) = s.toList.map Piece.char := by
  have h := scan_encode_append s []
  rwa [List.append_nil, show scan [] = [] from rfl, List.append_nil] at h

theorem decodeLossy_encode (s : String) : decodeLossy (encode s) = s := by
  rw [decodeLossy, scan_encode, List.map_map]
  simp [Function.comp_def, Piece.repaired]

theorem encode_ofList_cons (c : Char) (cs : List Char) :
    encode (String.ofList (c :: cs)) = String.utf8EncodeChar c ++ encode (String.ofList cs) := by
  simp [encode]

/-- Characters only move the place of a defect behind them. -/
theorem defectFrom_append (offset : Nat) (cs : List Char) (ps : List Piece) :
    defectFrom offset (cs.map Piece.char ++ ps) =
      defectFrom (offset + (encode (String.ofList cs)).length) ps := by
  induction cs generalizing offset with
  | nil => rfl
  | cons c cs ih =>
    rw [List.map_cons, List.cons_append, defectFrom, ih, encode_ofList_cons, List.length_append,
      String.length_utf8EncodeChar, Nat.add_assoc]

theorem defectFrom_map_char (offset : Nat) (cs : List Char) :
    defectFrom offset (cs.map Piece.char) = none := by
  have h := defectFrom_append offset cs []
  rwa [List.append_nil] at h

theorem defect?_encode (s : String) : defect? (encode s) = none := by
  rw [defect?, scan_encode, defectFrom_map_char]

end PeerWire.Utf8
