import PeerWire.Cursor
import PeerWire.Proofs.Reading
import PeerWire.Ty.Codec
import PeerWire.Ty.Image

/-!
# Declared types through their images

The codec of a declared type does what the codec of its shape does with the image. Reading under the
shape is reading under the type and taking the image (`Ty.decode_shape`), and what is read is
already stripped (`Ty.strip_decode`). Writing a value and writing its image are one emission
(`Ty.encode_image`), so no destination tells them apart. Main statements: `Ty.run_shape_decode` and
`Ty.deliver_encode_image`.
-/

namespace PeerWire

section

variable [Defaults]

/-! ## Reading -/

mutual
theorem Ty.decode_shape : (t : Ty) → t.shape.decode = t.image <$> t.decode
  | .u8 | .u16 | .u32 | .u64 | .bool | .string => by
    simp [Ty.shape, Shape.decode, Ty.decode, Ty.image]
  | .array n => by
    simp [Ty.shape, Shape.decode, Ty.decode, Reader.take]
    rfl
  | .list t => by
    have ih := Ty.decode_shape t
    simp [Ty.shape, Shape.decode, Ty.decode, Ty.image, ih, Reader.list_map]
  | .option t => by
    have ih := Ty.decode_shape t
    simp only [Ty.shape, Shape.decode, Ty.decode, ih, map_bind]
    congr 1
    funext b
    cases b <;> simp [Ty.image]
  | .boxed t => by
    have ih := Ty.decode_shape t
    simp [Ty.shape, Ty.decode, Ty.image, ih]
  | .wrapper _ t => by
    have ih := Ty.decode_shape t
    simp [Ty.shape, Ty.decode, Ty.image, ih]
  | .record .listing name ms => by
    have ih := Row.decodeFields_listing 0 ms
    simp [Ty.shape, Shape.decode, Ty.decode, Ty.image, ih]
  | .record .selection name ms => by
    have ih := Row.decodeFields_selection 0 0 ms
    simp [Ty.shape, Shape.decode, Ty.decode, Ty.image, ih]
theorem Row.decodeFields_listing (position : Nat) : (ms : List (Member Ty)) →
    Shape.decodeFields (listingFields position ms) = Row.images ms <$> Row.decode ms
  | [] => by simp [listingFields, Shape.decodeFields, Row.decode, Row.images]
  | ⟨_, t, _⟩ :: ms => by
    have iht := Ty.decode_shape t
    have ihms := Row.decodeFields_listing (position + 1) ms
    simp [listingFields, Shape.decodeFields, Row.decode, Row.images, iht, ihms]
theorem Row.decodeFields_selection (index position : Nat) : (ms : List (Member Ty)) →
    Shape.decodeFields (selectionFields index position ms) =
      (fun row => Row.markedImages ms (MarkedRow.complete ms row)) <$> MarkedRow.decode ms
  | [] => by
    simp [selectionFields, Shape.decodeFields, MarkedRow.decode, Row.markedImages]
  | ⟨_, t, true⟩ :: ms => by
    have iht := Ty.decode_shape t
    have ihms := Row.decodeFields_selection (index + 1) (position + 1) ms
    simp [selectionFields, Shape.decodeFields, MarkedRow.decode, Row.markedImages,
      MarkedRow.complete, iht, ihms]
  | ⟨_, t, false⟩ :: ms => by
    have ihms := Row.decodeFields_selection (index + 1) position ms
    simp [selectionFields, MarkedRow.decode, Row.markedImages, MarkedRow.complete, ihms]
end

/-! ## What is read is stripped -/

theorem MarkedRow.complete_decode_marked (name? : Option String) (t : Ty) (ms : List (Member Ty)) :
    MarkedRow.complete (⟨name?, t, true⟩ :: ms) <$> MarkedRow.decode (⟨name?, t, true⟩ :: ms) =
      (do return (← t.decode, ← MarkedRow.complete ms <$> MarkedRow.decode ms)) := by
  simp [MarkedRow.decode, MarkedRow.complete]

theorem MarkedRow.complete_decode_unmarked (name? : Option String) (t : Ty)
    (ms : List (Member Ty)) :
    MarkedRow.complete (⟨name?, t, false⟩ :: ms) <$> MarkedRow.decode (⟨name?, t, false⟩ :: ms) =
      (fun row => (t.default, row)) <$> MarkedRow.complete ms <$> MarkedRow.decode ms := by
  simp [MarkedRow.decode, MarkedRow.complete]

mutual
theorem Ty.strip_decode : (t : Ty) → t.strip <$> t.decode = t.decode
  | .u8 | .u16 | .u32 | .u64 | .bool | .string | .array _ => id_map _
  | .list t => by
    calc (List.map t.strip <$> Reader.list t.shape t.decode : Reader (List t.Val))
        = Reader.list t.shape (t.strip <$> t.decode) := (Reader.list_map _ _ _).symm
      _ = Reader.list t.shape t.decode := by rw [Ty.strip_decode t]
  | .option t => by
    -- What is stripped depends on the flag, so the flag is read first.
    rw [Ty.decode, map_bind]
    congr 1
    funext b
    cases b with
    | false => rfl
    | true =>
      calc (Ty.option t).strip <$> (do return some (← t.decode) : Reader (Option t.Val))
          = (do return some (← t.strip <$> t.decode)) := by simp [Ty.strip]
        _ = (do return some (← t.decode)) := by rw [Ty.strip_decode t]
  | .boxed t => by
    calc (Ty.boxed t).strip <$> (do return ⟨← t.decode⟩ : Reader (Boxed t.Val))
        = (do return ⟨← t.strip <$> t.decode⟩) := by simp [Ty.strip]
      _ = (do return ⟨← t.decode⟩) := by rw [Ty.strip_decode t]
  | .wrapper _ t => by
    calc (Ty.wrapper _ t).strip <$> (do return ⟨← t.decode⟩ : Reader (Wrapped t.Val))
        = (do return ⟨← t.strip <$> t.decode⟩) := by simp [Ty.strip]
      _ = (do return ⟨← t.decode⟩) := by rw [Ty.strip_decode t]
  | .record .listing _ ms => Row.strip_decode ms
  | .record .selection _ ms => by
    rw [Ty.decode, bind_pure_comp]
    exact Row.stripUnmarked_decode ms
theorem Row.strip_decode : (ms : List (Member Ty)) → Row.strip ms <$> Row.decode ms = Row.decode ms
  | [] => rfl
  | ⟨_, t, _⟩ :: ms => by
    calc Row.strip (⟨_, t, _⟩ :: ms) <$> (do return (← t.decode, ← Row.decode ms))
        = (do return (← t.strip <$> t.decode, ← Row.strip ms <$> Row.decode ms)) := by
          simp [Row.strip]
      _ = (do return (← t.decode, ← Row.decode ms)) := by
          rw [Ty.strip_decode t, Row.strip_decode ms]
theorem Row.stripUnmarked_decode : (ms : List (Member Ty)) →
    Row.stripUnmarked ms <$> MarkedRow.complete ms <$> MarkedRow.decode ms =
      MarkedRow.complete ms <$> MarkedRow.decode ms
  | [] => rfl
  | ⟨name?, t, true⟩ :: ms => by
    calc Row.stripUnmarked (⟨name?, t, true⟩ :: ms) <$>
          MarkedRow.complete (⟨name?, t, true⟩ :: ms) <$> MarkedRow.decode (⟨name?, t, true⟩ :: ms)
        = (do return (← t.strip <$> t.decode,
            ← Row.stripUnmarked ms <$> MarkedRow.complete ms <$> MarkedRow.decode ms)) := by
          rw [MarkedRow.complete_decode_marked]
          simp [Row.stripUnmarked]
      _ = (do return (← t.decode, ← MarkedRow.complete ms <$> MarkedRow.decode ms)) := by
          rw [Ty.strip_decode t, Row.stripUnmarked_decode ms]
      _ = _ := (MarkedRow.complete_decode_marked name? t ms).symm
  | ⟨name?, t, false⟩ :: ms => by
    calc Row.stripUnmarked (⟨name?, t, false⟩ :: ms) <$>
          MarkedRow.complete (⟨name?, t, false⟩ :: ms) <$>
            MarkedRow.decode (⟨name?, t, false⟩ :: ms)
        = (fun row => (t.default, row)) <$>
            Row.stripUnmarked ms <$> MarkedRow.complete ms <$> MarkedRow.decode ms := by
          rw [MarkedRow.complete_decode_unmarked]
          simp [Row.stripUnmarked]
      _ = (fun row => (t.default, row)) <$> MarkedRow.complete ms <$> MarkedRow.decode ms := by
          rw [Row.stripUnmarked_decode ms]
      _ = _ := (MarkedRow.complete_decode_unmarked name? t ms).symm
end

theorem Ty.strip_of_decode {t : Ty} {input : Bytes} {v : t.Val}
    (h : (t.decode input).result = .ok v) : t.strip v = v := by
  have hstrip : ((t.strip <$> t.decode) input).result = (t.decode input).result := by
    rw [t.strip_decode]
  rw [Reader.map_apply, h] at hstrip
  exact Except.ok.inj hstrip

/-! ## The two readers together -/

/-- From any cursor, the reader of the shape and that of the type fail alike or succeed alike, stop
at the same place and report the same events; where they succeed, one reads the image of what the
other reads, which holds defaults wherever a member does not travel. -/
theorem Ty.run_shape_decode (t : Ty) (c : Cursor) :
    let static := c.run t.decode
    let dynamic := c.run t.shape.decode
    dynamic.1.result = static.1.result.map t.image ∧
    dynamic.1.events = static.1.events ∧
    dynamic.2 = static.2 ∧
    ∀ v, static.1.result = .ok v → t.strip v = v := by
  intro static dynamic
  have himage : t.shape.decode c.rest = (t.image <$> t.decode) c.rest := by rw [t.decode_shape]
  rw [Reader.map_apply] at himage
  refine ⟨?_, ?_, ?_, fun v hv => t.strip_of_decode hv⟩
  · exact congrArg Reading.result himage
  · exact congrArg Reading.events himage
  · have hrest : (t.shape.decode c.rest).rest = (t.decode c.rest).rest :=
      congrArg Reading.rest himage
    show (c.run t.shape.decode).2 = (c.run t.decode).2
    simp only [Cursor.run, hrest]

end

/-! ## Writing -/

theorem Row.length_images (position : Nat) : (ms : List (Member Ty)) → (row : Row ms) →
    (Row.images ms row).length = (listingFields position ms).length
  | [], _ => rfl
  | _ :: ms, (_, row) => congrArg (· + 1) (Row.length_images (position + 1) ms row)

theorem Row.length_markedImages (index position : Nat) : (ms : List (Member Ty)) → (row : Row ms) →
    (Row.markedImages ms row).length = (selectionFields index position ms).length
  | [], _ => rfl
  | ⟨_, _, true⟩ :: ms, (_, row) =>
    congrArg (· + 1) (Row.length_markedImages (index + 1) (position + 1) ms row)
  | ⟨_, _, false⟩ :: ms, (_, row) => Row.length_markedImages (index + 1) position ms row

theorem Value.encodeItems_map {α : Type} {image : α → Value} {written : α → Emission}
    {element : Shape} (h : ∀ a, (image a).encode element = written a) (items : List α) :
    Value.encodeItems (items.map image) element = Emission.concat (items.map written) := by
  induction items with
  | nil => rfl
  | cons a as ih => rw [List.map_cons, Value.encodeItems, h, ih, List.map_cons, Emission.concat]

mutual
theorem Ty.encode_image : (t : Ty) → (v : t.Val) → (t.image v).encode t.shape = t.encode v
  | .u8, _ | .u16, _ | .u32, _ | .u64, _ | .bool, _ | .string, _ | .option _, none => rfl
  | .array n, bytes => if_pos bytes.property
  | .list t, items => by
    have hitems := Value.encodeItems_map (Ty.encode_image t) items
    show Emission.length (items.map t.image).length ++
      Value.encodeItems (items.map t.image) t.shape = Emission.list (items.map t.encode)
    rw [hitems, Emission.list, List.length_map, List.length_map]
  | .option t, some v => congrArg (Emission.flag true ++ ·) (Ty.encode_image t v)
  | .boxed t, v => Ty.encode_image t v.content
  | .wrapper _ t, v => Ty.encode_image t v.inner
  | .record .listing _ ms, row =>
    (if_pos (Row.length_images 0 ms row)).trans (Row.encodeFields_images 0 ms row)
  | .record .selection _ ms, row =>
    (if_pos (Row.length_markedImages 0 0 ms row)).trans (Row.encodeFields_markedImages 0 0 ms row)
theorem Row.encodeFields_images (position : Nat) : (ms : List (Member Ty)) → (row : Row ms) →
    Value.encodeFields (Row.images ms row) (listingFields position ms) = Row.encode ms row
  | [], _ => rfl
  | ⟨_, t, _⟩ :: ms, (v, row) => by
    rw [Row.images, listingFields, Value.encodeFields, Row.encode, Ty.encode_image t v,
      Row.encodeFields_images (position + 1) ms row]
theorem Row.encodeFields_markedImages (index position : Nat) : (ms : List (Member Ty)) →
    (row : Row ms) → Value.encodeFields (Row.markedImages ms row)
      (selectionFields index position ms) = Row.encodeMarked ms row
  | [], _ => rfl
  | ⟨_, t, true⟩ :: ms, (v, row) => by
    rw [Row.markedImages, selectionFields, Value.encodeFields, Row.encodeMarked,
      Ty.encode_image t v, Row.encodeFields_markedImages (index + 1) (position + 1) ms row]
  | ⟨_, t, false⟩ :: ms, (v, row) => by
    rw [Row.markedImages, selectionFields, Row.encodeMarked,
      Row.encodeFields_markedImages (index + 1) position ms row]
end

/-- Writing a value and writing its image under the shape offer any destination the same chunks up
to the same refusal, leave it in the same state and return the same. -/
theorem Ty.deliver_encode_image (t : Ty) (v : t.Val) :
    let static := t.encode v
    let dynamic := (t.image v).encode t.shape
    (dynamic.writes = static.writes ∧ dynamic.fault? = static.fault?) ∧
    (∀ {σ : Type} (dest : Destination σ) (s : σ),
      dynamic.deliver dest.recording (s, []) = static.deliver dest.recording (s, [])) ∧
    dynamic.toExcept = static.toExcept := by
  intro static dynamic
  have hsame : dynamic = static := t.encode_image v
  refine ⟨⟨?_, ?_⟩, fun dest s => ?_, ?_⟩
  all_goals rw [hsame]

end PeerWire
