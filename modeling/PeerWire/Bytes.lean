/-!
# Bytes

Wire data is a list of bytes. Numbers of a fixed width are written in big-endian order, the most
significant byte first. Main statements: the bytes of a number spell it up to what their width holds
(`decode_encode`), and bytes are what their number is written as (`encode_decode`).
-/

namespace PeerWire

abbrev Bytes := List UInt8

/-- A run of exactly `n` bytes. -/
abbrev Block (n : Nat) := { bytes : Bytes // bytes.length = n }

def Block.zero (n : Nat) : Block n := ⟨List.replicate n 0, List.length_replicate⟩

namespace BigEndian

/-- How many numbers a width tells apart. -/
def capacity : (width : Nat) → Nat
  | 0 => 1
  | width + 1 => 256 * capacity width

/-- The `width` low base-256 digits of a number, most significant first. -/
def encode : (width : Nat) → Nat → Bytes
  | 0, _ => []
  | width + 1, n => UInt8.ofNat (n / capacity width) :: encode width n

/-- The number that bytes spell in base 256. -/
def decode : Bytes → Nat
  | [] => 0
  | b :: bs => b.toNat * capacity bs.length + decode bs

theorem capacity_pos (width : Nat) : 0 < capacity width := by
  induction width with
  | zero => decide
  | succ width ih => exact Nat.mul_pos (by decide) ih

@[simp] theorem length_encode (width n : Nat) : (encode width n).length = width := by
  induction width with
  | zero => rfl
  | succ width ih => simp [encode, ih]

theorem encode_one (byte : UInt8) : encode 1 byte.toNat = [byte] := by
  simp [encode, capacity]

theorem decode_lt (bs : Bytes) : decode bs < capacity bs.length := by
  induction bs with
  | nil => decide
  | cons b bs ih =>
    have hb : b.toNat + 1 ≤ 256 := b.toNat_lt
    calc decode (b :: bs) < b.toNat * capacity bs.length + capacity bs.length :=
          Nat.add_lt_add_left ih _
      _ = (b.toNat + 1) * capacity bs.length := by rw [Nat.add_mul, Nat.one_mul]
      _ ≤ 256 * capacity bs.length := Nat.mul_le_mul_right _ hb

theorem decode_encode (width n : Nat) : decode (encode width n) = n % capacity width := by
  induction width with
  | zero => simp [encode, decode, capacity, Nat.mod_one]
  | succ width ih =>
    rw [encode, decode, length_encode, ih, capacity, Nat.mul_comm 256, Nat.mod_mul]
    simp [Nat.mul_comm, Nat.add_comm]

theorem encode_add_mul (width n k : Nat) :
    encode width (k * capacity width + n) = encode width n := by
  induction width generalizing k with
  | zero => rfl
  | succ width ih =>
    have hk : k * capacity (width + 1) + n = (k * 256) * capacity width + n := by
      rw [capacity, Nat.mul_assoc]
    rw [hk, encode, encode, ih, Nat.add_comm, Nat.add_mul_div_right _ _ (capacity_pos width)]
    congr 1
    apply UInt8.toNat_inj.1
    simp

theorem encode_decode (bs : Bytes) : encode bs.length (decode bs) = bs := by
  induction bs with
  | nil => rfl
  | cons b bs ih =>
    rw [List.length_cons, encode, decode, encode_add_mul, ih, Nat.add_comm,
      Nat.add_mul_div_right _ _ (capacity_pos _), Nat.div_eq_of_lt (decode_lt bs)]
    simp

end BigEndian

end PeerWire
