import Mathlib.Algebra.GroupWithZero.Nat
import PeerWire.Proofs.Reading
import PeerWire.Value

/-!
# The wire grammar

`Derivation k w v`: the bytes `w` denote the value `v` under the shape `k`. Derivations are data, so
that one can ask what occurs in them: `events` are the liberties that a reader of `w` takes, and
`heads` are its lists, in wire order, each with its count and the bytes that follow the count.

The grammar knows nothing of the end of the buffer. A reader does: it refuses a list whose count is
not covered by the bytes that follow. Main statement: a list whose elements take up bytes covers its
own count (`Derivation.covered_of_mem_heads`).
-/

namespace PeerWire

mutual
inductive Derivation : Shape → Bytes → Value → Type where
  | u8 (n : UInt8) : Derivation .u8 (BigEndian.encode 1 n.toNat) (.u8 n)
  | u16 (n : UInt16) : Derivation .u16 (BigEndian.encode 2 n.toNat) (.u16 n)
  | u32 (n : UInt32) : Derivation .u32 (BigEndian.encode 4 n.toNat) (.u32 n)
  | u64 (n : UInt64) : Derivation .u64 (BigEndian.encode 8 n.toNat) (.u64 n)
  | bool (byte : UInt8) : Derivation .bool [byte] (.bool (byte != 0))
  | fixedBytes (bytes : Bytes) : Derivation (.fixedBytes bytes.length) bytes (.fixedBytes bytes)
  /-- A 32-bit length and that many bytes, whatever they are. -/
  | string (bytes : Bytes) (hlen : bytes.length < BigEndian.capacity 4) :
      Derivation .string (BigEndian.encode 4 bytes.length ++ bytes)
        (.string (Utf8.decodeLossy bytes))
  /-- A 32-bit count and that many elements. -/
  | list {element : Shape} {w : Bytes} {vs : List Value} (hlen : vs.length < BigEndian.capacity 4)
      (ds : Derivations (List.replicate vs.length element) w vs) :
      Derivation (.list element) (BigEndian.encode 4 vs.length ++ w) (.list vs)
  | absent {inner : Shape} : Derivation (.optional inner) [0] (.optional none)
  | present {inner : Shape} {w : Bytes} {v : Value} (byte : UInt8) (hbyte : byte ≠ 0)
      (d : Derivation inner w v) : Derivation (.optional inner) (byte :: w) (.optional (some v))
  | record {name : String} {fields : List Field} {w : Bytes} {vs : List Value}
      (ds : Derivations (fields.map FieldOf.shape) w vs) :
      Derivation (.record name fields) w (.record vs)
/-- The bytes of some values, one after the other. -/
inductive Derivations : List Shape → Bytes → List Value → Type where
  | nil : Derivations [] [] []
  | cons {k : Shape} {ks : List Shape} {w ws : Bytes} {v : Value} {vs : List Value}
      (d : Derivation k w v) (ds : Derivations ks ws vs) :
      Derivations (k :: ks) (w ++ ws) (v :: vs)
end

/-! ## Events -/

mutual
def Derivation.events {k : Shape} {w : Bytes} {v : Value} : Derivation k w v → List Event
  | .bool byte => Event.ofFlag byte
  | .string bytes _ => Event.ofText bytes
  | .list _ ds => ds.events
  | .present byte _ d => Event.ofFlag byte ++ d.events
  | .record ds => ds.events
  | _ => []
def Derivations.events {ks : List Shape} {w : Bytes} {vs : List Value} :
    Derivations ks w vs → List Event
  | .nil => []
  | .cons d ds => d.events ++ ds.events
end

/-! ## Lists -/

/-- A list where it stands in a buffer: the shape of its elements, their count, and the number of
bytes from behind the count to the end of the buffer. -/
structure ListHead where
  element : Shape
  count : Nat
  room : Nat
  deriving DecidableEq

/-- The list claims no more elements than there are bytes behind its count. -/
@[reducible] def ListHead.Covered (h : ListHead) : Prop := h.count ≤ h.room

/-- The first list, if any, that is not covered. -/
def ListHead.firstUncovered? (heads : List ListHead) : Option ListHead :=
  heads.find? fun h => !decide h.Covered

theorem ListHead.firstUncovered?_eq_none_iff {heads : List ListHead} :
    firstUncovered? heads = none ↔ ∀ h ∈ heads, h.Covered := by
  simp [firstUncovered?]

theorem ListHead.firstUncovered?_append (heads heads' : List ListHead) :
    firstUncovered? (heads ++ heads') = (firstUncovered? heads).or (firstUncovered? heads') :=
  List.find?_append

theorem ListHead.firstUncovered?_cons (h : ListHead) (heads : List ListHead) :
    firstUncovered? (h :: heads) = if h.Covered then firstUncovered? heads else some h := by
  by_cases hc : h.Covered <;> simp [firstUncovered?, hc]

mutual
/-- The lists of a derivation in wire order, where `after` more bytes follow it in the buffer. -/
def Derivation.heads {k : Shape} {w : Bytes} {v : Value} (after : Nat) :
    Derivation k w v → List ListHead
  | @Derivation.list element w vs _ ds => ⟨element, vs.length, w.length + after⟩ :: ds.heads after
  | .present _ _ d => d.heads after
  | .record ds => ds.heads after
  | _ => []
def Derivations.heads {ks : List Shape} {w : Bytes} {vs : List Value} (after : Nat) :
    Derivations ks w vs → List ListHead
  | .nil => []
  | @Derivations.cons _ _ _ ws _ _ d ds => d.heads (ws.length + after) ++ ds.heads after
end

namespace Shape

mutual
/-- The element shapes of all lists in a shape, at every depth. -/
def elements : Shape → List Shape
  | list element => element :: element.elements
  | optional inner => inner.elements
  | record _ fields => fieldsElements fields
  | _ => []
def fieldsElements : List Field → List Shape
  | [] => []
  | ⟨_, _, s⟩ :: fields => s.elements ++ fieldsElements fields
end

theorem fieldsElements_eq (fields : List Field) :
    fieldsElements fields = (fields.map FieldOf.shape).flatMap elements := by
  induction fields with
  | nil => rfl
  | cons f fields ih => rw [fieldsElements, ih, List.map_cons, List.flatMap_cons]

theorem fieldsMinSize_eq (fields : List Field) :
    fieldsMinSize fields = ((fields.map FieldOf.shape).map minSize).sum := by
  induction fields with
  | nil => rfl
  | cons f fields ih => rw [fieldsMinSize, ih, List.map_cons, List.map_cons, List.sum_cons]

end Shape

/-! ## Places -/

mutual
/-- A list stands where its count is spelled and `room` bytes are left. -/
theorem Derivation.exists_place {k : Shape} {w : Bytes} {v : Value} (rest : Bytes) {h : ListHead} :
    (d : Derivation k w v) → h ∈ d.heads rest.length → ∃ before behind,
      w ++ rest = before ++ (BigEndian.encode 4 h.count ++ behind) ∧ behind.length = h.room
  | @Derivation.list element w vs hlen ds, hmem => by
    rcases List.mem_cons.1 hmem with rfl | hmem
    · exact ⟨[], w ++ rest, List.append_assoc _ _ _, List.length_append⟩
    · obtain ⟨before, behind, heq, hroom⟩ := ds.exists_place rest hmem
      refine ⟨BigEndian.encode 4 vs.length ++ before, behind, ?_, hroom⟩
      rw [List.append_assoc, heq, List.append_assoc]
  | .present byte _ d, hmem => by
    obtain ⟨before, behind, heq, hroom⟩ := d.exists_place rest hmem
    exact ⟨byte :: before, behind, congrArg (byte :: ·) heq, hroom⟩
  | .record ds, hmem => ds.exists_place rest hmem
  | .u8 _, hmem | .u16 _, hmem | .u32 _, hmem | .u64 _, hmem | .bool _, hmem
  | .fixedBytes _, hmem | .string _ _, hmem | .absent, hmem => by cases hmem
theorem Derivations.exists_place {ks : List Shape} {w : Bytes} {vs : List Value} (rest : Bytes)
    {h : ListHead} :
    (ds : Derivations ks w vs) → h ∈ ds.heads rest.length → ∃ before behind,
      w ++ rest = before ++ (BigEndian.encode 4 h.count ++ behind) ∧ behind.length = h.room
  | .nil, hmem => by cases hmem
  | @Derivations.cons k ks w ws v vs d ds, hmem => by
    rw [Derivations.heads, ← List.length_append] at hmem
    rw [List.append_assoc]
    rcases List.mem_append.1 hmem with hmem | hmem
    · exact d.exists_place (ws ++ rest) hmem
    · obtain ⟨before, behind, heq, hroom⟩ := ds.exists_place rest hmem
      exact ⟨w ++ before, behind, by rw [heq, List.append_assoc], hroom⟩
end

/-! ## Lengths -/

theorem Derivations.length_eq {ks : List Shape} {w : Bytes} {vs : List Value} :
    Derivations ks w vs → vs.length = ks.length
  | .nil => rfl
  | .cons _ ds => congrArg (· + 1) ds.length_eq

mutual
theorem Derivation.minSize_le {k : Shape} {w : Bytes} {v : Value} :
    Derivation k w v → k.minSize ≤ w.length
  | .u8 _ | .u16 _ | .u32 _ | .u64 _ => Nat.le_of_eq (BigEndian.length_encode _ _).symm
  | .bool _ | .fixedBytes _ | .absent => Nat.le_refl _
  | .string _ _ | .list _ _ => by
    rw [List.length_append, BigEndian.length_encode]
    exact Nat.le_add_right _ _
  | .present _ _ _ => Nat.le_add_left _ _
  | .record ds => by
    rw [Shape.minSize, Shape.fieldsMinSize_eq]
    exact ds.sum_minSize_le
theorem Derivations.sum_minSize_le {ks : List Shape} {w : Bytes} {vs : List Value} :
    Derivations ks w vs → (ks.map Shape.minSize).sum ≤ w.length
  | .nil => Nat.le_refl _
  | .cons d ds => by
    have hd := d.minSize_le
    have hds := ds.sum_minSize_le
    rw [List.map_cons, List.sum_cons, List.length_append]
    omega
end

theorem Derivations.count_mul_minSize_le {element : Shape} {count : Nat} {w : Bytes}
    {vs : List Value} (ds : Derivations (List.replicate count element) w vs) :
    count * element.minSize ≤ w.length := by
  have hsum := ds.sum_minSize_le
  rwa [List.map_replicate, List.sum_replicate_nat] at hsum

mutual
/-- The bytes behind the count of a list are enough for elements of the least size. -/
theorem Derivation.count_mul_minSize_le_of_mem_heads {k : Shape} {w : Bytes} {v : Value}
    {after : Nat} {h : ListHead} :
    (d : Derivation k w v) → h ∈ d.heads after → h.count * h.element.minSize ≤ h.room
  | .list _ ds, hmem => by
    rcases List.mem_cons.1 hmem with rfl | hmem
    · exact Nat.le_trans ds.count_mul_minSize_le (Nat.le_add_right _ _)
    · exact ds.count_mul_minSize_le_of_mem_heads hmem
  | .present _ _ d, hmem => d.count_mul_minSize_le_of_mem_heads hmem
  | .record ds, hmem => ds.count_mul_minSize_le_of_mem_heads hmem
  | .u8 _, hmem | .u16 _, hmem | .u32 _, hmem | .u64 _, hmem | .bool _, hmem
  | .fixedBytes _, hmem | .string _ _, hmem | .absent, hmem => by cases hmem
theorem Derivations.count_mul_minSize_le_of_mem_heads {ks : List Shape} {w : Bytes}
    {vs : List Value} {after : Nat} {h : ListHead} :
    (ds : Derivations ks w vs) → h ∈ ds.heads after → h.count * h.element.minSize ≤ h.room
  | .nil, hmem => by cases hmem
  | .cons d ds, hmem => by
    rcases List.mem_append.1 hmem with hmem | hmem
    · exact d.count_mul_minSize_le_of_mem_heads hmem
    · exact ds.count_mul_minSize_le_of_mem_heads hmem
end

/-- Elements that take up bytes are no more than the bytes behind their count. -/
theorem Derivation.covered_of_mem_heads {k : Shape} {w : Bytes} {v : Value} {after : Nat}
    {h : ListHead} (d : Derivation k w v) (hmem : h ∈ d.heads after)
    (hsize : 1 ≤ h.element.minSize) : h.Covered :=
  calc h.count = h.count * 1 := (Nat.mul_one h.count).symm
    _ ≤ h.count * h.element.minSize := Nat.mul_le_mul_left h.count hsize
    _ ≤ h.room := d.count_mul_minSize_le_of_mem_heads hmem

mutual
theorem Derivation.element_mem {k : Shape} {w : Bytes} {v : Value} {after : Nat} {h : ListHead} :
    (d : Derivation k w v) → h ∈ d.heads after → h.element ∈ k.elements
  | .list _ ds, hmem => by
    rcases List.mem_cons.1 hmem with rfl | hmem
    · exact List.mem_cons_self
    · obtain ⟨k, hk, hel⟩ := List.mem_flatMap.1 (ds.element_mem hmem)
      obtain rfl := List.eq_of_mem_replicate hk
      exact List.mem_cons_of_mem _ hel
  | .present _ _ d, hmem => d.element_mem hmem
  | .record ds, hmem => by
    rw [Shape.elements, Shape.fieldsElements_eq]
    exact ds.element_mem hmem
  | .u8 _, hmem | .u16 _, hmem | .u32 _, hmem | .u64 _, hmem | .bool _, hmem
  | .fixedBytes _, hmem | .string _ _, hmem | .absent, hmem => by cases hmem
theorem Derivations.element_mem {ks : List Shape} {w : Bytes} {vs : List Value} {after : Nat}
    {h : ListHead} :
    (ds : Derivations ks w vs) → h ∈ ds.heads after → h.element ∈ ks.flatMap Shape.elements
  | .nil, hmem => by cases hmem
  | .cons d ds, hmem => by
    rw [List.flatMap_cons]
    rcases List.mem_append.1 hmem with hmem | hmem
    · exact List.mem_append_left _ (d.element_mem hmem)
    · exact List.mem_append_right _ (ds.element_mem hmem)
end

end PeerWire
