import PeerWire.Proofs.Images
import PeerWire.Proofs.RoundTrip

/-!
# Unique decodability

Bytes that start with a value start with no other value of the same shape. The decoder alone does
not tell, since it refuses lists of empty elements at the end of a buffer. But whatever follows two
values that begin alike, they still begin alike with more bytes behind, and with enough of them no
list is refused (`Derivation.unique`).

Of a declared value the bytes tell its image, and the image tells what is left of the value when
members that do not travel are reset (`Ty.image_eq_iff`). Main statement:
`encode_append_eq_append_iff`.
-/

namespace PeerWire

/-! ## Derivations -/

mutual
/-- No count of 32 bits needs more bytes behind it than these. -/
theorem Derivation.covered_of_capacity_le {k : Shape} {w : Bytes} {v : Value} {after : Nat}
    (hle : BigEndian.capacity 4 ≤ after) {l : ListHead} :
    (d : Derivation k w v) → l ∈ d.heads after → l.Covered
  | @Derivation.list _ w vs hlen ds, hmem => by
    rcases List.mem_cons.1 hmem with rfl | hmem
    · show vs.length ≤ w.length + after
      omega
    · exact ds.covered_of_capacity_le hle hmem
  | .present _ _ d, hmem => d.covered_of_capacity_le hle hmem
  | .record ds, hmem => ds.covered_of_capacity_le hle hmem
  | .u8 _, hmem | .u16 _, hmem | .u32 _, hmem | .u64 _, hmem | .bool _, hmem
  | .fixedBytes _, hmem | .string _ _, hmem | .absent, hmem => by cases hmem
theorem Derivations.covered_of_capacity_le {ks : List Shape} {w : Bytes} {vs : List Value}
    {after : Nat} (hle : BigEndian.capacity 4 ≤ after) {l : ListHead} :
    (ds : Derivations ks w vs) → l ∈ ds.heads after → l.Covered
  | .nil, hmem => by cases hmem
  | @Derivations.cons _ _ _ ws _ _ d ds, hmem => by
    rcases List.mem_append.1 hmem with hmem | hmem
    · exact d.covered_of_capacity_le (Nat.le_trans hle (Nat.le_add_left _ _)) hmem
    · exact ds.covered_of_capacity_le hle hmem
end

theorem Derivation.unique {k : Shape} {w w' : Bytes} {v v' : Value} (d : Derivation k w v)
    (d' : Derivation k w' v') {a b : Bytes} (h : w ++ a = w' ++ b) : a = b ∧ v = v' := by
  -- Behind this much padding all lists are covered, so both values are read.
  let padding : Bytes := List.replicate (BigEndian.capacity 4) 0
  have hpadded (bs : Bytes) : BigEndian.capacity 4 ≤ (bs ++ padding).length := by
    rw [List.length_append, List.length_replicate]
    exact Nat.le_add_left _ _
  have hread := d.decode_append (a ++ padding) fun _ => d.covered_of_capacity_le (hpadded a)
  have hread' := d'.decode_append (b ++ padding) fun _ => d'.covered_of_capacity_le (hpadded b)
  rw [← List.append_assoc, h, List.append_assoc, hread'] at hread
  injection hread with hresult hrest
  exact ⟨(List.append_cancel_right hrest).symm, (Except.ok.inj hresult).symm⟩

theorem Value.encode_append_inj {k : Shape} {v v' : Value} {e e' a b : Bytes}
    (he : (v.encode k).toExcept = .ok e) (he' : (v'.encode k).toExcept = .ok e')
    (h : e ++ a = e' ++ b) : a = b ∧ v = v' := by
  obtain ⟨d, -⟩ := exists_derivation k he
  obtain ⟨d', -⟩ := exists_derivation k he'
  exact d.unique d' h

/-! ## Images and stripped values -/

theorem map_eq_map_of_imp {α β γ : Type} {f : α → β} {g : α → γ}
    (h : ∀ x y, f x = f y → g x = g y) : {xs ys : List α} → xs.map f = ys.map f →
      xs.map g = ys.map g
  | [], [], _ => rfl
  | x :: xs, y :: ys, hxs => by
    obtain ⟨hx, hxs⟩ := List.cons.inj hxs
    rw [List.map_cons, List.map_cons, h x y hx, map_eq_map_of_imp h hxs]
  | [], _ :: _, hxs | _ :: _, [], hxs => by cases hxs

section

variable [Defaults]

mutual
theorem Ty.image_strip : (t : Ty) → (v : t.Val) → t.image (t.strip v) = t.image v
  | .u8, _ | .u16, _ | .u32, _ | .u64, _ | .bool, _ | .string, _ | .array _, _
  | .option _, none => rfl
  | .list t, items => by
    have ih : ∀ v ∈ items, (t.image ∘ t.strip) v = t.image v := fun v _ => Ty.image_strip t v
    rw [Ty.strip, Ty.image, Ty.image, List.map_map, List.map_congr_left ih]
  | .option t, some v => congrArg (fun v => Value.optional (some v)) (Ty.image_strip t v)
  | .boxed t, v => Ty.image_strip t v.content
  | .wrapper _ t, v => Ty.image_strip t v.inner
  | .record .listing _ ms, row => congrArg Value.record (Row.images_strip ms row)
  | .record .selection _ ms, row => congrArg Value.record (Row.markedImages_strip ms row)
theorem Row.images_strip : (ms : List (Member Ty)) → (row : Row ms) →
    Row.images ms (Row.strip ms row) = Row.images ms row
  | [], _ => rfl
  | ⟨_, t, _⟩ :: ms, (v, row) => by
    rw [Row.strip, Row.images, Row.images, Ty.image_strip t v, Row.images_strip ms row]
theorem Row.markedImages_strip : (ms : List (Member Ty)) → (row : Row ms) →
    Row.markedImages ms (Row.stripUnmarked ms row) = Row.markedImages ms row
  | [], _ => rfl
  | ⟨_, t, true⟩ :: ms, (v, row) => by
    rw [Row.stripUnmarked, Row.markedImages, Row.markedImages, Ty.image_strip t v,
      Row.markedImages_strip ms row]
  | ⟨_, _, false⟩ :: ms, (_, row) => Row.markedImages_strip ms row
end

mutual
theorem Ty.strip_eq_of_image_eq : (t : Ty) → (x y : t.Val) → t.image x = t.image y →
    t.strip x = t.strip y
  | .u8, _, _, h => Value.u8.inj h
  | .u16, _, _, h => Value.u16.inj h
  | .u32, _, _, h => Value.u32.inj h
  | .u64, _, _, h => Value.u64.inj h
  | .bool, _, _, h => Value.bool.inj h
  | .string, _, _, h => Value.string.inj h
  | .array _, _, _, h => Subtype.ext (Value.fixedBytes.inj h)
  | .list t, _, _, h => map_eq_map_of_imp (Ty.strip_eq_of_image_eq t) (Value.list.inj h)
  | .option _, none, none, _ => rfl
  | .option t, some x, some y, h =>
    congrArg some (Ty.strip_eq_of_image_eq t x y (Option.some.inj (Value.optional.inj h)))
  | .option _, none, some _, h | .option _, some _, none, h => by cases Value.optional.inj h
  | .boxed t, x, y, h => congrArg Boxed.mk (Ty.strip_eq_of_image_eq t x.content y.content h)
  | .wrapper _ t, x, y, h => congrArg Wrapped.mk (Ty.strip_eq_of_image_eq t x.inner y.inner h)
  | .record .listing _ ms, x, y, h => Row.strip_eq_of_images_eq ms x y (Value.record.inj h)
  | .record .selection _ ms, x, y, h =>
    Row.stripUnmarked_eq_of_markedImages_eq ms x y (Value.record.inj h)
theorem Row.strip_eq_of_images_eq : (ms : List (Member Ty)) → (x y : Row ms) →
    Row.images ms x = Row.images ms y → Row.strip ms x = Row.strip ms y
  | [], _, _, _ => rfl
  | ⟨_, t, _⟩ :: ms, (v, x), (w, y), h => by
    obtain ⟨hv, hx⟩ := List.cons.inj h
    rw [Row.strip, Row.strip, Ty.strip_eq_of_image_eq t v w hv, Row.strip_eq_of_images_eq ms x y hx]
theorem Row.stripUnmarked_eq_of_markedImages_eq : (ms : List (Member Ty)) → (x y : Row ms) →
    Row.markedImages ms x = Row.markedImages ms y →
      Row.stripUnmarked ms x = Row.stripUnmarked ms y
  | [], _, _, _ => rfl
  | ⟨_, t, true⟩ :: ms, (v, x), (w, y), h => by
    obtain ⟨hv, hx⟩ := List.cons.inj h
    rw [Row.stripUnmarked, Row.stripUnmarked, Ty.strip_eq_of_image_eq t v w hv,
      Row.stripUnmarked_eq_of_markedImages_eq ms x y hx]
  | ⟨_, t, false⟩ :: ms, (_, x), (_, y), h =>
    congrArg (t.default, ·) (Row.stripUnmarked_eq_of_markedImages_eq ms x y h)
end

/-- The image tells apart just the values that differ in a member that travels. -/
theorem Ty.image_eq_iff (t : Ty) (x y : t.Val) : t.image x = t.image y ↔ t.strip x = t.strip y := by
  constructor
  · exact t.strip_eq_of_image_eq x y
  · intro h
    rw [← t.image_strip x, h, t.image_strip]

theorem Ty.encode_eq_of_strip_eq (t : Ty) {x y : t.Val} (h : t.strip x = t.strip y) :
    t.encode x = t.encode y := by
  rw [← t.encode_image, (t.image_eq_iff x y).2 h, t.encode_image]

/-! ## Unique decodability -/

/-- Two written values with bytes behind them are the same bytes just if the values agree in all
members that travel, at every depth, and the bytes behind them are the same. So none of two written
values is a proper prefix of the other, and members that do not travel have no part in what is
written, or in how writing fails. -/
theorem encode_append_eq_append_iff :
    (∀ (t : Ty) (x y : t.Val) (ex ey a b : Bytes),
      (t.encode x).toExcept = .ok ex → (t.encode y).toExcept = .ok ey →
        (ex ++ a = ey ++ b ↔ a = b ∧ t.strip x = t.strip y) ∧ (ex <+: ey → ex = ey)) ∧
    (∀ (t : Ty) (x y : t.Val), t.strip x = t.strip y → t.encode x = t.encode y) ∧
    (∀ (k : Shape) (v v' : Value) (e e' a b : Bytes),
      (v.encode k).toExcept = .ok e → (v'.encode k).toExcept = .ok e' →
        (e ++ a = e' ++ b ↔ a = b ∧ v = v')) := by
  refine ⟨fun t x y ex ey a b hx hy => ?_, fun t x y => t.encode_eq_of_strip_eq,
    fun k v v' e e' a b he he' => ⟨Value.encode_append_inj he he', ?_⟩⟩
  · have hinj {a b : Bytes} (h : ex ++ a = ey ++ b) : a = b ∧ t.image x = t.image y := by
      rw [← t.encode_image] at hx hy
      exact Value.encode_append_inj hx hy h
    refine ⟨⟨fun h => ?_, ?_⟩, ?_⟩
    · obtain ⟨hab, himage⟩ := hinj h
      exact ⟨hab, (t.image_eq_iff x y).1 himage⟩
    · rintro ⟨rfl, hstrip⟩
      rw [t.encode_eq_of_strip_eq hstrip, hy] at hx
      cases hx
      rfl
    · rintro ⟨a, ha⟩
      obtain ⟨rfl, -⟩ := hinj (ha.trans (List.append_nil ey).symm)
      rwa [List.append_nil] at ha
  · rintro ⟨rfl, rfl⟩
    rw [he] at he'
    cases he'
    rfl

end

section

attribute [local instance] Defaults.zero

/-- Two notes that differ in a member that does not travel. Their bytes alone cannot be read back,
for want of a byte behind the second mark, and still they are the bytes of no other notes. -/
theorem encode_append_eq_append_iff_hidden_member :
    let t : Ty := .list (.option (.record .selection "Note"
      [⟨some "marks", .list (.array 0), true⟩, ⟨some "cache", .string, false⟩]))
    let marks : List (Block 0) := [Block.zero 0, Block.zero 0]
    let x : t.Val := [some (marks, "draft", ()), none]
    let y : t.Val := [some (marks, "final", ()), none]
    let e : Bytes := [0, 0, 0, 2, 1, 0, 0, 0, 2, 0]
    (t.encode x).toExcept = .ok e ∧ (t.encode y).toExcept = .ok e ∧ x ≠ y ∧
    t.strip x = t.strip y ∧ t.image x = t.image y ∧
    (t.decode e).result = .error (.insufficientBytes 2 1) := by
  intro t marks x y e
  have hx : (t.encode x).toExcept = .ok e := by decide +kernel
  have hy : (t.encode y).toExcept = .ok e := by decide +kernel
  obtain ⟨hstatic, -, hdynamic⟩ := encode_append_eq_append_iff
  obtain ⟨hiff, -⟩ := hstatic t x y e e [] [] hx hy
  obtain ⟨-, hstrip⟩ := hiff.1 rfl
  have hiff' := hdynamic t.shape (t.image x) (t.image y) e e [] []
  rw [t.encode_image, t.encode_image] at hiff'
  obtain ⟨-, himage⟩ := (hiff' hx hy).1 rfl
  refine ⟨hx, hy, by decide, hstrip, himage, ?_⟩
  have hshape : (t.shape.decode e).result = .error (.insufficientBytes 2 1) := by decide +kernel
  rcases hread : t.shape.decode e with ⟨fault | v, rest, es⟩
  · rw [hread] at hshape
    cases hshape
    rw [t.decode_shape, Reader.map_eq_error] at hread
    rw [hread]
  · rw [hread] at hshape
    cases hshape

end

end PeerWire
