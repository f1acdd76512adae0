import Mathlib.Logic.Nonempty
import PeerWire.Proofs.ByteLists
import PeerWire.Proofs.Unique

/-!
# Boxes and wrappers

Boxes and wrappers are layers around a type that leave no trace on the wire. A `Relayering t u` says
how `u` comes from `t` by layers that are put on or taken off, at any depth, while all else stays as
it is, and it takes the values of the one type to values of the other. Two types have one just if
they are the same without their layers (`Relayering.nonempty_iff_bare_eq`).

Values correspond if they differ in layers and in members that do not travel. A reader fills those
members with defaults, and a named type is free in the choice of its default, so the values that are
read differ in nothing but layers if the defaults of such members do (`Relayering.Fills`). Main
statement: `Relayering.transparent`.
-/

namespace PeerWire

mutual
inductive Relayering : Ty → Ty → Type where
  | kept (t : Ty) : Relayering t t
  | box {t u : Ty} (e : Relayering t u) : Relayering t (.boxed u)
  | unbox {t u : Ty} (e : Relayering t u) : Relayering (.boxed t) u
  | wrap (name : String) {t u : Ty} (e : Relayering t u) : Relayering t (.wrapper name u)
  | unwrap (name : String) {t u : Ty} (e : Relayering t u) : Relayering (.wrapper name t) u
  | list {t u : Ty} (e : Relayering t u) : Relayering (.list t) (.list u)
  | option {t u : Ty} (e : Relayering t u) : Relayering (.option t) (.option u)
  | record (form : Form) (name : String) {ms ns : List (Member Ty)}
      (es : RelayeringMembers ms ns) : Relayering (.record form name ms) (.record form name ns)
/-- Members that differ in the layers of their types. Names and marks are the same. -/
inductive RelayeringMembers : List (Member Ty) → List (Member Ty) → Type where
  | nil : RelayeringMembers [] []
  | cons {name? : Option String} {t u : Ty} {marked : Bool} {ms ns : List (Member Ty)}
      (e : Relayering t u) (es : RelayeringMembers ms ns) :
      RelayeringMembers (⟨name?, t, marked⟩ :: ms) (⟨name?, u, marked⟩ :: ns)
end

mutual
/-- The value with the layers of the other type around it and around its parts. -/
def Relayering.transfer {t u : Ty} : Relayering t u → t.Val → u.Val
  | .kept _, v => v
  | .box e, v => ⟨e.transfer v⟩
  | .unbox e, v => e.transfer v.content
  | .wrap _ e, v => ⟨e.transfer v⟩
  | .unwrap _ e, v => e.transfer v.inner
  | .list e, items => items.map e.transfer
  | .option e, v? => v?.map e.transfer
  | .record _ _ es, row => es.transfer row
def RelayeringMembers.transfer {ms ns : List (Member Ty)} :
    RelayeringMembers ms ns → Row ms → Row ns
  | .nil, _ => ()
  | .cons e es, (v, row) => (e.transfer v, es.transfer row)
end

mutual
/-- The way back. -/
def Relayering.reverse {t u : Ty} : Relayering t u → Relayering u t
  | .kept t => .kept t
  | .box e => .unbox e.reverse
  | .unbox e => .box e.reverse
  | .wrap name e => .unwrap name e.reverse
  | .unwrap name e => .wrap name e.reverse
  | .list e => .list e.reverse
  | .option e => .option e.reverse
  | .record form name es => .record form name es.reverse
def RelayeringMembers.reverse {ms ns : List (Member Ty)} :
    RelayeringMembers ms ns → RelayeringMembers ns ms
  | .nil => .nil
  | .cons e es => .cons e.reverse es.reverse
end

/-! ## Types without layers -/

mutual
/-- The type without its layers, at every depth. -/
def Ty.bare : Ty → Ty
  | .list t => .list t.bare
  | .option t => .option t.bare
  | .boxed t => t.bare
  | .wrapper _ t => t.bare
  | .record form name ms => .record form name (bareMembers ms)
  | t => t
def bareMembers : List (Member Ty) → List (Member Ty)
  | [] => []
  | ⟨name?, t, marked⟩ :: ms => ⟨name?, t.bare, marked⟩ :: bareMembers ms
end

mutual
theorem Relayering.bare_eq {t u : Ty} : Relayering t u → t.bare = u.bare
  | .kept _ => rfl
  | .box e | .unbox e | .wrap _ e | .unwrap _ e => e.bare_eq
  | .list e => congrArg Ty.list e.bare_eq
  | .option e => congrArg Ty.option e.bare_eq
  | .record form name es => congrArg (Ty.record form name) es.bareMembers_eq
theorem RelayeringMembers.bareMembers_eq {ms ns : List (Member Ty)} :
    RelayeringMembers ms ns → bareMembers ms = bareMembers ns
  | .nil => rfl
  | .cons e es => by rw [bareMembers, bareMembers, e.bare_eq, es.bareMembers_eq]
end

mutual
theorem Relayering.nonempty_of_bare_eq : (t u : Ty) → t.bare = u.bare → Nonempty (Relayering t u)
  | .boxed t, u, h => (Relayering.nonempty_of_bare_eq t u h).map .unbox
  | .wrapper name t, u, h => (Relayering.nonempty_of_bare_eq t u h).map (.unwrap name)
  | t, .boxed u, h => (Relayering.nonempty_of_bare_eq t u h).map .box
  | t, .wrapper name u, h => (Relayering.nonempty_of_bare_eq t u h).map (.wrap name)
  | .list t, .list u, h => (Relayering.nonempty_of_bare_eq t u (Ty.list.inj h)).map .list
  | .option t, .option u, h => (Relayering.nonempty_of_bare_eq t u (Ty.option.inj h)).map .option
  | .record form name ms, .record form' name' ns, h => by
    obtain ⟨rfl, rfl, hms⟩ := Ty.record.inj h
    exact (RelayeringMembers.nonempty_of_bareMembers_eq ms ns hms).map (.record form name)
  | .u8, .u8, _ | .u16, .u16, _ | .u32, .u32, _ | .u64, .u64, _ | .bool, .bool, _
  | .string, .string, _ => ⟨.kept _⟩
  | .array _, .array _, h => by
    obtain rfl := Ty.array.inj h
    exact ⟨.kept _⟩
theorem RelayeringMembers.nonempty_of_bareMembers_eq : (ms ns : List (Member Ty)) →
    bareMembers ms = bareMembers ns → Nonempty (RelayeringMembers ms ns)
  | [], [], _ => ⟨.nil⟩
  | ⟨name?, t, marked⟩ :: ms, ⟨name'?, u, marked'⟩ :: ns, h => by
    obtain ⟨hm, hms⟩ := List.cons.inj h
    obtain ⟨rfl, ht, rfl⟩ := Member.mk.inj hm
    obtain ⟨e⟩ := Relayering.nonempty_of_bare_eq t u ht
    exact (RelayeringMembers.nonempty_of_bareMembers_eq ms ns hms).map (.cons e)
end

/-- The layers of one type can be turned into those of another just if nothing but layers tells the
two apart. -/
theorem Relayering.nonempty_iff_bare_eq (t u : Ty) : Nonempty (Relayering t u) ↔ t.bare = u.bare :=
  ⟨fun ⟨e⟩ => e.bare_eq, Relayering.nonempty_of_bare_eq t u⟩

/-! ## There and back -/

mutual
theorem Relayering.reverse_reverse {t u : Ty} : (e : Relayering t u) → e.reverse.reverse = e
  | .kept _ => rfl
  | .box e => congrArg Relayering.box e.reverse_reverse
  | .unbox e => congrArg Relayering.unbox e.reverse_reverse
  | .wrap name e => congrArg (Relayering.wrap name) e.reverse_reverse
  | .unwrap name e => congrArg (Relayering.unwrap name) e.reverse_reverse
  | .list e => congrArg Relayering.list e.reverse_reverse
  | .option e => congrArg Relayering.option e.reverse_reverse
  | .record form name es => congrArg (Relayering.record form name) es.reverse_reverse
theorem RelayeringMembers.reverse_reverse {ms ns : List (Member Ty)} :
    (es : RelayeringMembers ms ns) → es.reverse.reverse = es
  | .nil => rfl
  | .cons e es => congrArg₂ RelayeringMembers.cons e.reverse_reverse es.reverse_reverse
end

mutual
theorem Relayering.reverse_transfer {t u : Ty} : (e : Relayering t u) → (v : t.Val) →
    e.reverse.transfer (e.transfer v) = v
  | .kept _, _ => rfl
  | .box e, v => e.reverse_transfer v
  | .unbox e, v => congrArg Boxed.mk (e.reverse_transfer v.content)
  | .wrap _ e, v => e.reverse_transfer v
  | .unwrap _ e, v => congrArg Wrapped.mk (e.reverse_transfer v.inner)
  | .list e, items => by
    have ih : ∀ v ∈ items, e.reverse.transfer (e.transfer v) = v := fun v _ => e.reverse_transfer v
    rw [Relayering.reverse, Relayering.transfer, Relayering.transfer, List.map_map]
    exact (List.map_congr_left ih).trans (List.map_id _)
  | .option _, none => rfl
  | .option e, some v => congrArg some (e.reverse_transfer v)
  | .record _ _ es, row => es.reverse_transfer row
theorem RelayeringMembers.reverse_transfer {ms ns : List (Member Ty)} :
    (es : RelayeringMembers ms ns) → (row : Row ms) → es.reverse.transfer (es.transfer row) = row
  | .nil, _ => rfl
  | .cons e es, (v, row) => congrArg₂ Prod.mk (e.reverse_transfer v) (es.reverse_transfer row)
end

theorem Relayering.transfer_reverse {t u : Ty} (e : Relayering t u) (w : u.Val) :
    e.transfer (e.reverse.transfer w) = w := by
  have h := e.reverse.reverse_transfer w
  rwa [e.reverse_reverse] at h

/-! ## Shapes and images -/

mutual
theorem Relayering.shape_eq {t u : Ty} : Relayering t u → u.shape = t.shape
  | .kept _ => rfl
  | .box e | .unbox e | .wrap _ e | .unwrap _ e => e.shape_eq
  | .list e => congrArg Shape.list e.shape_eq
  | .option e => congrArg Shape.optional e.shape_eq
  | .record .listing name es => congrArg (Shape.record name) (es.listingFields_eq 0)
  | .record .selection name es => congrArg (Shape.record name) (es.selectionFields_eq 0 0)
theorem RelayeringMembers.listingFields_eq {ms ns : List (Member Ty)} (position : Nat) :
    RelayeringMembers ms ns → listingFields position ns = listingFields position ms
  | .nil => rfl
  | .cons e es => by
    rw [listingFields, listingFields, e.shape_eq, es.listingFields_eq (position + 1)]
    rfl
theorem RelayeringMembers.selectionFields_eq {ms ns : List (Member Ty)} (index position : Nat) :
    RelayeringMembers ms ns → selectionFields index position ns = selectionFields index position ms
  | .nil => rfl
  | @RelayeringMembers.cons _ _ _ true _ _ e es => by
    rw [selectionFields, selectionFields, e.shape_eq,
      es.selectionFields_eq (index + 1) (position + 1)]
    rfl
  | @RelayeringMembers.cons _ _ _ false _ _ _ es => es.selectionFields_eq (index + 1) position
end

mutual
theorem Relayering.image_transfer {t u : Ty} : (e : Relayering t u) → (v : t.Val) →
    u.image (e.transfer v) = t.image v
  | .kept _, _ | .option _, none => rfl
  | .box e, v => e.image_transfer v
  | .unbox e, v => e.image_transfer v.content
  | .wrap _ e, v => e.image_transfer v
  | .unwrap _ e, v => e.image_transfer v.inner
  | @Relayering.list t u e, items => by
    have ih : ∀ v ∈ items, (u.image ∘ e.transfer) v = t.image v := fun v _ => e.image_transfer v
    rw [Relayering.transfer, Ty.image, Ty.image, List.map_map, List.map_congr_left ih]
  | .option e, some v => congrArg (fun v => Value.optional (some v)) (e.image_transfer v)
  | .record .listing _ es, row => congrArg Value.record (es.images_transfer row)
  | .record .selection _ es, row => congrArg Value.record (es.markedImages_transfer row)
theorem RelayeringMembers.images_transfer {ms ns : List (Member Ty)} :
    (es : RelayeringMembers ms ns) → (row : Row ms) →
      Row.images ns (es.transfer row) = Row.images ms row
  | .nil, _ => rfl
  | .cons e es, (v, row) => by
    rw [RelayeringMembers.transfer, Row.images, Row.images, e.image_transfer v,
      es.images_transfer row]
theorem RelayeringMembers.markedImages_transfer {ms ns : List (Member Ty)} :
    (es : RelayeringMembers ms ns) → (row : Row ms) →
      Row.markedImages ns (es.transfer row) = Row.markedImages ms row
  | .nil, _ => rfl
  | @RelayeringMembers.cons _ _ _ true _ _ e es, (v, row) => by
    rw [RelayeringMembers.transfer, Row.markedImages, Row.markedImages, e.image_transfer v,
      es.markedImages_transfer row]
  | @RelayeringMembers.cons _ _ _ false _ _ _ es, (_, row) => es.markedImages_transfer row
end

/-! ## Values that correspond -/

section

variable [Defaults] {t u : Ty}

/-- The values are the same but for layers and for members that do not travel. -/
def Relayering.Corresponds (e : Relayering t u) (v : t.Val) (w : u.Val) : Prop :=
  u.strip w = u.strip (e.transfer v)

theorem Relayering.corresponds_iff (e : Relayering t u) (v : t.Val) (w : u.Val) :
    e.Corresponds v w ↔ u.image w = t.image v := by
  rw [← e.image_transfer v]
  exact (u.image_eq_iff w (e.transfer v)).symm

/-- What a reader of `u` makes of a value of `t`. -/
theorem Relayering.corresponds_strip (e : Relayering t u) (v : t.Val) :
    e.Corresponds v (u.strip (e.transfer v)) := by
  rw [e.corresponds_iff, u.image_strip, e.image_transfer]

theorem Relayering.encode_eq (e : Relayering t u) {v : t.Val} {w : u.Val}
    (h : e.Corresponds v w) : u.encode w = t.encode v := by
  rw [← u.encode_image, (e.corresponds_iff v w).1 h, e.shape_eq, t.encode_image]

/-- Both readers read what the reader of the shape reads, so what they read has one image. -/
theorem Relayering.decode_eq (e : Relayering t u) :
    u.decode = (fun v => u.strip (e.transfer v)) <$> t.decode := by
  have himage : u.image <$> u.decode = t.image <$> t.decode := by
    rw [← u.decode_shape, ← t.decode_shape, e.shape_eq]
  funext input
  rcases ht : t.decode input with ⟨fault | v, rest, es⟩
  · have hu : (u.image <$> u.decode) input = ⟨.error fault, rest, es⟩ := by
      rw [himage]
      exact Reader.map_eq_error.2 ht
    rw [Reader.map_eq_error.1 hu, Reader.map_eq_error.2 ht]
  · have hu : (u.image <$> u.decode) input = ⟨.ok (t.image v), rest, es⟩ := by
      rw [himage]
      exact Reader.map_of_ok t.image ht
    obtain ⟨w, hw, hv⟩ := Reader.map_eq_ok.1 hu
    have hstrip : u.strip w = w := Ty.strip_of_decode (by rw [hw])
    have hsame : u.strip w = u.strip (e.transfer v) := (e.corresponds_iff v w).2 hv
    rw [hw, Reader.map_of_ok _ ht, ← hsame, hstrip]

end

/-! ## Defaults that correspond -/

mutual
/-- The defaults of the members that do not travel differ in layers alone, at every depth. -/
def Relayering.Fills [Defaults] {t u : Ty} : Relayering t u → Prop
  | .kept _ => True
  | .box e | .unbox e | .wrap _ e | .unwrap _ e | .list e | .option e => e.Fills
  | .record .listing _ es => es.Fills
  | .record .selection _ es => es.FillsUnmarked
def RelayeringMembers.Fills [Defaults] {ms ns : List (Member Ty)} : RelayeringMembers ms ns → Prop
  | .nil => True
  | .cons e es => e.Fills ∧ es.Fills
def RelayeringMembers.FillsUnmarked [Defaults] {ms ns : List (Member Ty)} :
    RelayeringMembers ms ns → Prop
  | .nil => True
  | @RelayeringMembers.cons _ _ _ true _ _ e es => e.Fills ∧ es.FillsUnmarked
  | @RelayeringMembers.cons _ t u false _ _ e es =>
    e.transfer t.default = u.default ∧ es.FillsUnmarked
end

section

variable [Defaults]

mutual
theorem Relayering.strip_transfer {t u : Ty} : (e : Relayering t u) → e.Fills → (v : t.Val) →
    u.strip (e.transfer v) = e.transfer (t.strip v)
  | .kept _, _, _ | .option _, _, none => rfl
  | .box e, h, v => congrArg Boxed.mk (e.strip_transfer h v)
  | .unbox e, h, v => e.strip_transfer h v.content
  | .wrap _ e, h, v => congrArg Wrapped.mk (e.strip_transfer h v)
  | .unwrap _ e, h, v => e.strip_transfer h v.inner
  | @Relayering.list t u e, h, items => by
    have ih : ∀ v ∈ items, (u.strip ∘ e.transfer) v = (e.transfer ∘ t.strip) v :=
      fun v _ => e.strip_transfer h v
    rw [Relayering.transfer, Relayering.transfer, Ty.strip, Ty.strip, List.map_map, List.map_map,
      List.map_congr_left ih]
  | .option e, h, some v => congrArg some (e.strip_transfer h v)
  | .record .listing _ es, h, row => es.strip_transfer h row
  | .record .selection _ es, h, row => es.stripUnmarked_transfer h row
theorem RelayeringMembers.strip_transfer {ms ns : List (Member Ty)} :
    (es : RelayeringMembers ms ns) → es.Fills → (row : Row ms) →
      Row.strip ns (es.transfer row) = es.transfer (Row.strip ms row)
  | .nil, _, _ => rfl
  | .cons e es, h, (v, row) =>
    congrArg₂ Prod.mk (e.strip_transfer h.1 v) (es.strip_transfer h.2 row)
theorem RelayeringMembers.stripUnmarked_transfer {ms ns : List (Member Ty)} :
    (es : RelayeringMembers ms ns) → es.FillsUnmarked → (row : Row ms) →
      Row.stripUnmarked ns (es.transfer row) = es.transfer (Row.stripUnmarked ms row)
  | .nil, _, _ => rfl
  | @RelayeringMembers.cons _ _ _ true _ _ e es, h, (v, row) =>
    congrArg₂ Prod.mk (e.strip_transfer h.1 v) (es.stripUnmarked_transfer h.2 row)
  | @RelayeringMembers.cons _ _ _ false _ _ _ es, h, (_, row) =>
    congrArg₂ Prod.mk h.1.symm (es.stripUnmarked_transfer h.2 row)
end

theorem Relayering.decode_eq_of_fills {t u : Ty} (e : Relayering t u) (h : e.Fills) :
    u.decode = e.transfer <$> t.decode := by
  calc u.decode = (fun v => e.transfer (t.strip v)) <$> t.decode := by
        rw [e.decode_eq]
        simp only [e.strip_transfer h]
    _ = e.transfer <$> t.strip <$> t.decode := by rw [Functor.map_map]
    _ = e.transfer <$> t.decode := by rw [t.strip_decode]

end

mutual
theorem Relayering.transfer_zero {t u : Ty} : (e : Relayering t u) → e.transfer t.zero = u.zero
  | .kept _ | .list _ | .option _ => rfl
  | .box e => congrArg Boxed.mk e.transfer_zero
  | .unbox e => e.transfer_zero
  | .wrap _ e => congrArg Wrapped.mk e.transfer_zero
  | .unwrap _ e => e.transfer_zero
  | .record _ _ es => es.transfer_zero
theorem RelayeringMembers.transfer_zero {ms ns : List (Member Ty)} :
    (es : RelayeringMembers ms ns) → es.transfer (Row.zero ms) = Row.zero ns
  | .nil => rfl
  | .cons e es => congrArg₂ Prod.mk e.transfer_zero es.transfer_zero
end

section

attribute [local instance] Defaults.zero

theorem Ty.default_zero : (t : Ty) → t.default = t.zero
  | .u8 | .u16 | .u32 | .u64 | .bool | .string | .array _ | .list _ | .option _
  | .wrapper _ _ | .record _ _ _ => rfl
  | .boxed t => congrArg Boxed.mk t.default_zero

mutual
/-- Where all named types choose their zeros, defaults always correspond. -/
theorem Relayering.fills_zero {t u : Ty} : (e : Relayering t u) → e.Fills
  | .kept _ => trivial
  | .box e | .unbox e | .wrap _ e | .unwrap _ e | .list e | .option e => e.fills_zero
  | .record .listing _ es => es.fills_zero
  | .record .selection _ es => es.fillsUnmarked_zero
theorem RelayeringMembers.fills_zero {ms ns : List (Member Ty)} :
    (es : RelayeringMembers ms ns) → es.Fills
  | .nil => trivial
  | .cons e es => ⟨e.fills_zero, es.fills_zero⟩
theorem RelayeringMembers.fillsUnmarked_zero {ms ns : List (Member Ty)} :
    (es : RelayeringMembers ms ns) → es.FillsUnmarked
  | .nil => trivial
  | @RelayeringMembers.cons _ _ _ true _ _ e es => ⟨e.fills_zero, es.fillsUnmarked_zero⟩
  | @RelayeringMembers.cons _ t u false _ _ e es => by
    refine ⟨?_, es.fillsUnmarked_zero⟩
    rw [t.default_zero, u.default_zero, e.transfer_zero]
end

end

/-- Layers leave no trace. Types that differ in layers alone have one shape, and their values
correspond one to one. Of two values that are the same but for layers and for members that do not
travel, any destination is offered the same chunks up to the same refusal, is left in the same state
and answers the same. From any cursor, the readers of the two types fail alike or read such values,
stop at the same place and report the same events; and the values that they read differ in nothing
but layers if the defaults that they fill in do. -/
theorem Relayering.transparent [Defaults] {t u : Ty} (e : Relayering t u) :
    u.shape = t.shape ∧
    ((∀ v, e.reverse.transfer (e.transfer v) = v) ∧ ∀ w, e.transfer (e.reverse.transfer w) = w) ∧
    (∀ v, e.Corresponds v (e.transfer v) ∧ e.Corresponds v (u.strip (e.transfer v))) ∧
    (∀ (v : t.Val) (w : u.Val), e.Corresponds v w →
      let plain := t.encode v
      let layered := u.encode w
      (layered.writes = plain.writes ∧ layered.fault? = plain.fault?) ∧
      (∀ {σ : Type} (dest : Destination σ) (s : σ),
        layered.deliver dest.recording (s, []) = plain.deliver dest.recording (s, [])) ∧
      layered.toExcept = plain.toExcept) ∧
    ∀ c : Cursor,
      let plain := c.run t.decode
      let layered := c.run u.decode
      layered.1.events = plain.1.events ∧
      layered.2 = plain.2 ∧
      layered.1.result = plain.1.result.map (fun v => u.strip (e.transfer v)) ∧
      (e.Fills → layered.1.result = plain.1.result.map e.transfer) := by
  refine ⟨e.shape_eq, ⟨e.reverse_transfer, e.transfer_reverse⟩,
    fun v => ⟨rfl, e.corresponds_strip v⟩, fun v w h => ?_, fun c => ?_⟩
  · rw [e.encode_eq h]
    exact ⟨⟨rfl, rfl⟩, fun _ _ => rfl, rfl⟩
  · have hrun := congrArg c.run e.decode_eq
    rw [c.run_map] at hrun
    refine ⟨?_, ?_, ?_, fun h => ?_⟩
    · exact congrArg (fun out => out.1.events) hrun
    · exact congrArg Prod.snd hrun
    · exact congrArg (fun out => out.1.result) hrun
    · rw [e.decode_eq_of_fills h, c.run_map]
      rfl

/-- Wrappers of a byte start at seven, and all other named types choose their zeros. -/
@[reducible] def Defaults.seven : Defaults where
  wrapper _ inner :=
    match inner with
    | .u8 => (7 : UInt8)
    | inner => inner.zero
  record _ _ members := Row.zero members

/-- Blocks with one mark, whose height does not travel. A height that starts at seven is another
number than the plain one that starts at zero, and all that travels is the same. -/
theorem Relayering.transparent_height :
    let t : Ty := .record .selection "Block"
      [.named "marks" (.list .u16), ⟨some "height", .u8, false⟩]
    let u : Ty := .record .selection "Block"
      [.named "marks" (.boxed (.list (.wrapper "Mark" .u16))),
        ⟨some "height", .wrapper "Height" .u8, false⟩]
    let e : Relayering t u := .record _ _
      (.cons (.box (.list (.wrap "Mark" (.kept _)))) (.cons (.wrap "Height" (.kept _)) .nil))
    let v : t.Val := ([(9 : UInt16)], (5 : UInt8), ())
    let w : u.Val := (⟨[⟨(9 : UInt16)⟩]⟩, ⟨(6 : UInt8)⟩, ())
    let bytes : Bytes := [0, 0, 0, 1, 0, 9]
    let c := Cursor.ofBytes bytes
    (@Relayering.Corresponds .seven t u e v w ∧
      (t.encode v).toExcept = .ok bytes ∧ (u.encode w).toExcept = .ok bytes) ∧
    ((c.run (@Ty.decode .seven t)).1.result = .ok ([9], (0 : UInt8), ()) ∧
      (c.run (@Ty.decode .seven u)).1.result = .ok (⟨[⟨9⟩]⟩, ⟨(7 : UInt8)⟩, ()) ∧
      ¬ @Relayering.Fills .seven t u e) ∧
    (@Relayering.Fills .zero t u e ∧
      (c.run (@Ty.decode .zero u)).1.result = .ok (⟨[⟨9⟩]⟩, ⟨(0 : UInt8)⟩, ())) := by
  intro t u e v w bytes c
  have hread (defaults : Defaults) :
      (c.run (@Ty.decode defaults t)).1.result = .ok ([9], (0 : UInt8), ()) := rfl
  have hsame : @Relayering.Corresponds .seven t u e v w := rfl
  have hwritten : (t.encode v).toExcept = .ok bytes := by decide +kernel
  obtain ⟨-, -, -, hencode, hdecode⟩ := @Relayering.transparent .seven t u e
  obtain ⟨-, -, -, -, hexact⟩ := @Relayering.transparent .zero t u e
  have hzero : @Relayering.Fills .zero t u e := e.fills_zero
  refine ⟨⟨hsame, hwritten, ?_⟩, ⟨hread .seven, ?_, fun h => ?_⟩, hzero, ?_⟩
  · rw [(hencode v w hsame).2.2, hwritten]
  · rw [(hdecode c).2.2.1, hread .seven]
    rfl
  · exact absurd h.2.1 (by decide)
  · rw [(hexact c).2.2.2 hzero, hread .zero]
    rfl

end PeerWire
