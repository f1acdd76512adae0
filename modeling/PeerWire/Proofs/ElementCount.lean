import Mathlib.Tactic.Ring
import PeerWire.Proofs.Acceptance

/-!
# How many elements a buffer can hold

The elements of all lists of a value that was read, counted at every depth, against the bytes that
it was read from. Where every element takes up bytes, each is charged to bytes of its own, and the
count of its list has more to spare (`Derivation.elementCount_add_le`). Elements that take up none
are bounded list by list: a list has four bytes for its count, and the count is covered by the
buffer (`Derivation.elementCount_le_heads`). So a buffer can hold a quadratic number of empty
elements, and no more; `staircase` is a value that comes that far. Main statement:
`Shape.elementCount_decode_le`.
-/

namespace PeerWire

mutual
/-- The number of list elements in a value, over all its lists. -/
def Value.elementCount : Value → Nat
  | .list items => items.length + elementCountAll items
  | .optional (some v) => v.elementCount
  | .record values => elementCountAll values
  | _ => 0
def Value.elementCountAll : List Value → Nat
  | [] => 0
  | v :: vs => v.elementCount + elementCountAll vs
end

/-! ## Elements that take up bytes -/

theorem min_one_sum_le (ms : List Nat) : min 1 ms.sum ≤ (ms.map (min 1)).sum := by
  induction ms with
  | nil => simp
  | cons m ms ih =>
    simp only [List.map_cons, List.sum_cons]
    omega

theorem sum_map_min_one_replicate {element : Shape} (h : 1 ≤ element.minSize) (count : Nat) :
    (((List.replicate count element).map Shape.minSize).map (min 1)).sum = count := by
  simp [Nat.min_eq_left h]

/-- A value without lists needs no bytes for elements. -/
theorem Derivation.elementCount_add_le_of_zero {k : Shape} {w : Bytes} {v : Value}
    (d : Derivation k w v) (h : v.elementCount = 0) :
    v.elementCount + min 1 k.minSize ≤ w.length := by
  have hmin := d.minSize_le
  omega

mutual
/-- The elements are no more than the bytes, and fewer if the shape asks for a byte at all. -/
theorem Derivation.elementCount_add_le {k : Shape} {w : Bytes} {v : Value} :
    (d : Derivation k w v) → (∀ element ∈ k.elements, 1 ≤ element.minSize) →
      v.elementCount + min 1 k.minSize ≤ w.length
  | .u8 n, _ => (Derivation.u8 n).elementCount_add_le_of_zero rfl
  | .u16 n, _ => (Derivation.u16 n).elementCount_add_le_of_zero rfl
  | .u32 n, _ => (Derivation.u32 n).elementCount_add_le_of_zero rfl
  | .u64 n, _ => (Derivation.u64 n).elementCount_add_le_of_zero rfl
  | .bool byte, _ => (Derivation.bool byte).elementCount_add_le_of_zero rfl
  | .fixedBytes bytes, _ => (Derivation.fixedBytes bytes).elementCount_add_le_of_zero rfl
  | .string bytes hlen, _ => (Derivation.string bytes hlen).elementCount_add_le_of_zero rfl
  | .absent, _ => Nat.le_refl 1
  | @Derivation.list element w vs _ ds, h => by
    have helement : 1 ≤ element.minSize := h element List.mem_cons_self
    have hds := ds.elementCount_add_le fun e he => by
      obtain ⟨k, hk, hel⟩ := List.mem_flatMap.1 he
      obtain rfl := List.eq_of_mem_replicate hk
      exact h e (List.mem_cons_of_mem _ hel)
    rw [sum_map_min_one_replicate helement] at hds
    simp only [Value.elementCount, Shape.minSize, List.length_append, BigEndian.length_encode]
    omega
  | .present _ _ d, h => by
    have hd := d.elementCount_add_le h
    simp only [Value.elementCount, Shape.minSize, List.length_cons]
    omega
  | @Derivation.record _ fields w vs ds, h => by
    rw [Shape.elements, Shape.fieldsElements_eq] at h
    have hds := ds.elementCount_add_le h
    have hmin := min_one_sum_le ((fields.map FieldOf.shape).map Shape.minSize)
    simp only [Value.elementCount, Shape.minSize, Shape.fieldsMinSize_eq]
    omega
theorem Derivations.elementCount_add_le {ks : List Shape} {w : Bytes} {vs : List Value} :
    (ds : Derivations ks w vs) → (∀ element ∈ ks.flatMap Shape.elements, 1 ≤ element.minSize) →
      Value.elementCountAll vs + ((ks.map Shape.minSize).map (min 1)).sum ≤ w.length
  | .nil, _ => Nat.le_refl 0
  | .cons d ds, h => by
    rw [List.flatMap_cons] at h
    have hd := d.elementCount_add_le fun e he => h e (List.mem_append_left _ he)
    have hds := ds.elementCount_add_le fun e he => h e (List.mem_append_right _ he)
    simp only [Value.elementCountAll, List.map_cons, List.sum_cons, List.length_append]
    omega
end

/-! ## Elements list by list -/

mutual
theorem Derivation.elementCount_le_heads {k : Shape} {w : Bytes} {v : Value} {after n : Nat} :
    (d : Derivation k w v) → (∀ h ∈ d.heads after, h.count ≤ n) →
      v.elementCount ≤ (d.heads after).length * n
  | .list hlen ds, h => by
    obtain ⟨hhead, htail⟩ := List.forall_mem_cons.1 h
    have hds := ds.elementCount_le_heads htail
    rw [Value.elementCount, Derivation.heads, List.length_cons, Nat.add_mul, Nat.one_mul,
      Nat.add_comm]
    exact Nat.add_le_add hds hhead
  | .present _ _ d, h => d.elementCount_le_heads h
  | .record ds, h => ds.elementCount_le_heads h
  | .u8 _, _ | .u16 _, _ | .u32 _, _ | .u64 _, _ | .bool _, _ | .fixedBytes _, _ | .string _ _, _
  | .absent, _ => Nat.zero_le _
theorem Derivations.elementCount_le_heads {ks : List Shape} {w : Bytes} {vs : List Value}
    {after n : Nat} :
    (ds : Derivations ks w vs) → (∀ h ∈ ds.heads after, h.count ≤ n) →
      Value.elementCountAll vs ≤ (ds.heads after).length * n
  | .nil, _ => Nat.zero_le _
  | .cons d ds, h => by
    obtain ⟨hhead, htail⟩ := List.forall_mem_append.1 h
    rw [Value.elementCountAll, Derivations.heads, List.length_append, Nat.add_mul]
    exact Nat.add_le_add (d.elementCount_le_heads hhead) (ds.elementCount_le_heads htail)
end

mutual
/-- Every list has four bytes of its own, those of its count. -/
theorem Derivation.length_heads_mul_le {k : Shape} {w : Bytes} {v : Value} {after : Nat} :
    (d : Derivation k w v) → (d.heads after).length * 4 ≤ w.length
  | @Derivation.list _ w _ _ ds => by
    have hds : (ds.heads after).length * 4 ≤ w.length := ds.length_heads_mul_le
    rw [Derivation.heads, List.length_cons, List.length_append, BigEndian.length_encode]
    omega
  | .present _ _ d => Nat.le_succ_of_le d.length_heads_mul_le
  | .record ds => ds.length_heads_mul_le
  | .u8 _ | .u16 _ | .u32 _ | .u64 _ | .bool _ | .fixedBytes _ | .string _ _ | .absent =>
    Nat.zero_le _
theorem Derivations.length_heads_mul_le {ks : List Shape} {w : Bytes} {vs : List Value}
    {after : Nat} : (ds : Derivations ks w vs) → (ds.heads after).length * 4 ≤ w.length
  | .nil => Nat.zero_le _
  | .cons d ds => by
    rw [Derivations.heads, List.length_append, List.length_append, Nat.add_mul]
    exact Nat.add_le_add d.length_heads_mul_le ds.length_heads_mul_le
end

theorem Derivation.room_le {k : Shape} {w rest : Bytes} {v : Value} (d : Derivation k w v)
    {h : ListHead} (hmem : h ∈ d.heads rest.length) : h.room ≤ (w ++ rest).length := by
  obtain ⟨before, behind, heq, hroom⟩ := d.exists_place rest hmem
  rw [heq, List.length_append, List.length_append, hroom]
  omega

/-- No list has more elements than the buffer has bytes, and there are at most a quarter as many
lists as bytes that were taken. -/
theorem Derivation.Reads.elementCount_le {k : Shape} {w : Bytes} {v : Value} {d : Derivation k w v}
    {input rest : Bytes} {es : List Event} (h : d.Reads input rest es) :
    v.elementCount ≤ w.length / 4 * input.length := by
  have hcounts : ∀ l ∈ d.heads rest.length, l.count ≤ input.length := fun l hl => by
    rw [h.input_eq]
    exact Nat.le_trans (h.covered l hl) (d.room_le hl)
  have hlists : (d.heads rest.length).length ≤ w.length / 4 :=
    (Nat.le_div_iff_mul_le (by decide)).2 d.length_heads_mul_le
  exact Nat.le_trans (d.elementCount_le_heads hcounts) (Nat.mul_le_mul_right _ hlists)

/-! ## A quadratic number of elements -/

/-- Lists of empty elements, each with as many of them as there are bytes behind its count if
nothing follows the last list. -/
def Value.staircase : Nat → List Value
  | 0 => []
  | m + 1 => .list (List.replicate (4 * m) (.fixedBytes [])) :: staircase m

def staircaseBytes : Nat → Bytes
  | 0 => []
  | m + 1 => BigEndian.encode 4 (4 * m) ++ staircaseBytes m

theorem staircaseBytes_succ (m : Nat) :
    staircaseBytes (m + 1) = BigEndian.encode 4 (4 * m) ++ staircaseBytes m := rfl

theorem length_staircase (m : Nat) : (Value.staircase m).length = m := by
  induction m with
  | zero => rfl
  | succ m ih => rw [Value.staircase, List.length_cons, ih]

theorem length_staircaseBytes (m : Nat) : (staircaseBytes m).length = 4 * m := by
  induction m with
  | zero => rfl
  | succ m ih =>
    rw [staircaseBytes_succ, List.length_append, BigEndian.length_encode, ih]
    omega

theorem elementCountAll_replicate_empty (n : Nat) :
    Value.elementCountAll (List.replicate n (.fixedBytes [])) = 0 := by
  induction n with
  | zero => rfl
  | succ n ih =>
    rw [List.replicate_succ, Value.elementCountAll, ih]
    rfl

theorem elementCountAll_staircase (m : Nat) :
    Value.elementCountAll (Value.staircase m) + 2 * m = 2 * m * m := by
  induction m with
  | zero => rfl
  | succ m ih =>
    rw [Value.staircase, Value.elementCountAll, Value.elementCount, List.length_replicate,
      elementCountAll_replicate_empty]
    have hsquare : 2 * (m + 1) * (m + 1) = 2 * m * m + 4 * m + 2 := by ring
    omega

namespace Shape

theorem mapM_decode_empty (n : Nat) (rest : Bytes) :
    (List.replicate n (fixedBytes 0)).mapM decode rest =
      ⟨.ok (List.replicate n (.fixedBytes [])), rest, []⟩ := by
  induction n with
  | zero => rfl
  | succ n ih =>
    have hread : (fixedBytes 0).decode rest = ⟨.ok (.fixedBytes []), rest, []⟩ := by
      rw [decode, bind_pure_comp]
      exact Reader.map_of_ok _ (Reader.take_append [] rest)
    rw [List.replicate_succ, List.mapM_cons, Reader.bind_of_ok hread, Reader.bind_of_ok ih]
    rfl

theorem decode_list_empty {n : Nat} (h : n < BigEndian.capacity 4) {rest : Bytes}
    (hn : n ≤ rest.length) : (list (fixedBytes 0)).decode (BigEndian.encode 4 n ++ rest) =
      ⟨.ok (.list (List.replicate n (.fixedBytes []))), rest, []⟩ := by
  rw [decode, bind_pure_comp]
  refine Reader.map_of_ok _ ?_
  rw [decode_list_append _ h, if_neg (Nat.not_lt.2 hn), mapM_decode_empty]

theorem mapM_decode_staircase {m : Nat} (h : 4 * m < BigEndian.capacity 4) :
    (List.replicate m (list (fixedBytes 0))).mapM decode (staircaseBytes m) =
      ⟨.ok (Value.staircase m), [], []⟩ := by
  induction m with
  | zero => rfl
  | succ m ih =>
    have hm : 4 * m < BigEndian.capacity 4 := Nat.lt_of_le_of_lt (by omega) h
    -- The list has as many elements as there are bytes in the rest of the stairs.
    have hread := decode_list_empty hm (Nat.le_of_eq (length_staircaseBytes m).symm)
    rw [List.replicate_succ, List.mapM_cons, staircaseBytes_succ, Reader.bind_of_ok hread,
      Reader.bind_of_ok (ih hm)]
    rfl

/-- The four bytes in front of the stairs are the count of their outer list. -/
theorem run_decode_staircase {m : Nat} (h : 4 * m < BigEndian.capacity 4) :
    let buffer := BigEndian.encode 4 m ++ staircaseBytes m
    (Cursor.ofBytes buffer).run (list (list (fixedBytes 0))).decode =
      (⟨.ok (.list (Value.staircase m)), []⟩, ⟨buffer, 4 * m + 4⟩) := by
  intro buffer
  have hm : m < BigEndian.capacity 4 := Nat.lt_of_le_of_lt (by omega) h
  have hroom : ¬ m > (staircaseBytes m).length := by
    rw [length_staircaseBytes]
    omega
  have hread : (list (list (fixedBytes 0))).decode buffer =
      ⟨.ok (.list (Value.staircase m)), [], []⟩ := by
    rw [decode, bind_pure_comp]
    refine Reader.map_of_ok _ ?_
    rw [decode_list_append _ hm, if_neg hroom, mapM_decode_staircase h]
  have hlen : buffer.length = 4 * m + 4 := by
    rw [List.length_append, BigEndian.length_encode, length_staircaseBytes, Nat.add_comm]
  rw [Cursor.run_ofBytes, hread, hlen]
  rfl

/-- A value that was read from `c` bytes of a buffer has at most `c` list elements if all elements
of its shape take up bytes, and fewer if the shape does. Otherwise a quarter of `c`, times the
length of the buffer, bounds what can come on top, and empty elements do reach a square. -/
theorem elementCount_decode_le :
    (∀ (k : Shape) (buffer : Bytes) (v : Value) (c : Nat) (es : List Event),
      (Cursor.ofBytes buffer).run k.decode = (⟨.ok v, es⟩, ⟨buffer, c⟩) →
        ((∀ element ∈ k.elements, 1 ≤ element.minSize) →
          v.elementCount ≤ c ∧ (1 ≤ k.minSize → v.elementCount + 1 ≤ c)) ∧
        v.elementCount ≤ c + c / 4 * buffer.length) ∧
    ∀ m, 1 ≤ m → m < 2 ^ 30 → ∃ buffer v, buffer.length = 4 * m + 4 ∧
      (Cursor.ofBytes buffer).run (list (list (fixedBytes 0))).decode =
        (⟨.ok v, []⟩, ⟨buffer, 4 * m + 4⟩) ∧
      v.elementCount = 2 * m * m - m := by
  refine ⟨fun k buffer v c es h => ?_, fun m _ hm => ?_⟩
  · obtain ⟨hc, d, hd⟩ := exists_derivation_of_run h
    have hlen : (buffer.take c).length = c := List.length_take_of_le hc
    refine ⟨fun hk => ?_, ?_⟩
    · have hsized := d.elementCount_add_le hk
      rw [hlen] at hsized
      omega
    · have hquarter := hd.elementCount_le
      rw [hlen] at hquarter
      exact Nat.le_trans hquarter (Nat.le_add_left _ _)
  · have hcapacity : 4 * m < BigEndian.capacity 4 := by
      have h : BigEndian.capacity 4 = 4 * 2 ^ 30 := by decide
      omega
    refine ⟨_, _, ?_, run_decode_staircase hcapacity, ?_⟩
    · rw [List.length_append, BigEndian.length_encode, length_staircaseBytes, Nat.add_comm]
    · have hcount := elementCountAll_staircase m
      rw [Value.elementCount, length_staircase]
      omega

/-- Three elements in nine bytes, and fifteen empty ones in sixteen. -/
theorem elementCount_decode_le_options_and_stairs :
    let k : Shape := .list (.optional .u16)
    let v : Value := .list [.optional none, .optional (some (.u16 0xabcd)), .optional none]
    let buffer : Bytes := [0, 0, 0, 3, 0, 7, 0xab, 0xcd, 0]
    (Cursor.ofBytes buffer).run k.decode = (⟨.ok v, [.looseFlag 7]⟩, ⟨buffer, 9⟩) ∧
    v.elementCount = 3 ∧ v.elementCount + 1 ≤ 9 ∧
    ∃ buffer v, buffer.length = 16 ∧
      (Cursor.ofBytes buffer).run (list (list (fixedBytes 0))).decode =
        (⟨.ok v, []⟩, ⟨buffer, 16⟩) ∧ v.elementCount = 15 := by
  intro k v buffer
  have hrun : (Cursor.ofBytes buffer).run k.decode =
      (⟨.ok v, [.looseFlag 7]⟩, ⟨buffer, 9⟩) := by
    decide +kernel
  obtain ⟨hbound, hstairs⟩ := elementCount_decode_le
  obtain ⟨hsized, -⟩ := hbound k buffer v 9 _ hrun
  obtain ⟨-, hfewer⟩ := hsized (by decide)
  exact ⟨hrun, rfl, hfewer (by decide), hstairs 3 (by decide) (by decide)⟩

end Shape

end PeerWire
