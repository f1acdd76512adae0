import PeerWire.Proofs.Generated
import PeerWire.Proofs.Restored

/-!
# Look-up by name

A record of generated code, made into a dynamic value, is looked into by the names of its fields.
The value comes by way of the wire, so it is there if the record can be written and the lists in it
are covered; the only other fault is a length that does not fit (`Ty.reflect_of_fault`). In it the
field of a name is what the record has under that name (`Generated.field?_image`): names are those
of the declaration and positions those of the wire, and the unmarked fields in between count for the
first alone. Main statement: `Generated.field_by_name`.
-/

namespace PeerWire

/-! ## Faults -/

/-- If anything goes wrong, it is a length. -/
def Emission.FaultsByLength (a : Emission) : Prop :=
  ∀ e, a.fault? = some e → ∃ n, e = .lengthOverflow n

namespace Emission.FaultsByLength

theorem done : done.FaultsByLength := nofun

theorem write (chunk : Bytes) : (write chunk).FaultsByLength := nofun

theorem append {a b : Emission} (ha : a.FaultsByLength) (hb : b.FaultsByLength) :
    (a ++ b).FaultsByLength := by
  rcases a with ⟨writes, _ | e⟩
  · exact hb
  · exact ha

theorem concat {as : List Emission} (h : ∀ a ∈ as, a.FaultsByLength) :
    (concat as).FaultsByLength := by
  induction as with
  | nil => exact done
  | cons a as ih =>
    obtain ⟨ha, has⟩ := List.forall_mem_cons.1 h
    exact ha.append (ih has)

theorem length (n : Nat) : (length n).FaultsByLength := by
  unfold Emission.length
  split
  · exact write _
  · intro e he
    exact ⟨n, (Option.some.inj he).symm⟩

theorem text (s : String) : (text s).FaultsByLength := (length _).append (write _)

theorem list {items : List Emission} (h : ∀ a ∈ items, a.FaultsByLength) :
    (list items).FaultsByLength :=
  (length _).append (concat h)

end Emission.FaultsByLength

mutual
theorem Ty.faultsByLength_encode : (t : Ty) → (v : t.Val) → (t.encode v).FaultsByLength
  | .u8, _ | .u16, _ | .u32, _ | .u64, _ | .bool, _ | .array _, _ | .option _, none => .write _
  | .string, s => .text s
  | .list t, _ => .list (List.forall_mem_map.2 fun v _ => Ty.faultsByLength_encode t v)
  | .option t, some v => .append (.write _) (Ty.faultsByLength_encode t v)
  | .boxed t, v => Ty.faultsByLength_encode t v.content
  | .wrapper _ t, v => Ty.faultsByLength_encode t v.inner
  | .record .listing _ ms, row => Row.faultsByLength_encode ms row
  | .record .selection _ ms, row => Row.faultsByLength_encodeMarked ms row
theorem Row.faultsByLength_encode : (ms : List (Member Ty)) → (row : Row ms) →
    (Row.encode ms row).FaultsByLength
  | [], _ => .done
  | ⟨_, t, _⟩ :: ms, (v, row) =>
    .append (Ty.faultsByLength_encode t v) (Row.faultsByLength_encode ms row)
theorem Row.faultsByLength_encodeMarked : (ms : List (Member Ty)) → (row : Row ms) →
    (Row.encodeMarked ms row).FaultsByLength
  | [], _ => .done
  | ⟨_, t, true⟩ :: ms, (v, row) =>
    .append (Ty.faultsByLength_encode t v) (Row.faultsByLength_encodeMarked ms row)
  | ⟨_, _, false⟩ :: ms, (_, row) => Row.faultsByLength_encodeMarked ms row
end

/-! ## Reflection -/

theorem Ty.reflect_of_fault {t : Ty} {v : t.Val} {e : WireError}
    (h : (t.encode v).fault? = some e) :
    t.reflect v = ⟨.error e, []⟩ ∧ ∃ n, e = .lengthOverflow n := by
  refine ⟨?_, t.faultsByLength_encode v e h⟩
  rw [Ty.reflect, Emission.toExcept, h]

theorem Ty.reflect_of_toExcept {t : Ty} {v : t.Val} {bytes : Bytes}
    (h : (t.encode v).toExcept = .ok bytes) :
    t.reflect v = ⟨(t.shape.decode bytes).result, (t.shape.decode bytes).events⟩ := by
  rw [Ty.reflect, h]

theorem Ty.reflect_of_covered {t : Ty} {v : t.Val} {bytes : Bytes}
    (h : (t.encode v).toExcept = .ok bytes)
    (hcovered : ∀ l ∈ (t.image v).heads t.shape 0, l.count ≤ l.room) :
    t.reflect v = ⟨.ok (t.image v), []⟩ := by
  obtain ⟨d, hd⟩ := Ty.exists_derivation h
  rw [← hd.heads_eq] at hcovered
  have hread := d.decode_append [] hcovered
  rw [List.append_nil] at hread
  rw [Ty.reflect_of_toExcept h, hread, hd.silent]

theorem Ty.reflect_of_uncovered {t : Ty} {v : t.Val} {bytes : Bytes}
    (h : (t.encode v).toExcept = .ok bytes) {l : ListHead}
    (hl : ListHead.firstUncovered? ((t.image v).heads t.shape 0) = some l) :
    (t.reflect v).result = .error (.insufficientBytes l.count l.room) := by
  obtain ⟨d, hd⟩ := Ty.exists_derivation h
  rw [← hd.heads_eq] at hl
  have hread := d.decode_uncovered [] hl
  rw [List.append_nil] at hread
  rw [Ty.reflect_of_toExcept h, hread]

namespace Derive

/-! ## Images of rows -/

variable {types : String → Ty}

def FieldValue.image (x : FieldValue types) : Value := (types x.ty).image x.value

theorem markedImages_eq : (choices : List (Field × Bool)) → (row : RowOf types choices) →
    Row.markedImages _ row = (travelling choices row).map FieldValue.image
  | [], _ => rfl
  | (_, true) :: choices, (_, row) => congrArg (_ :: ·) (markedImages_eq choices row)
  | (_, false) :: choices, (_, row) => markedImages_eq choices row

theorem Generated.image_eq (g : Generated) (row : (g.decl types).Val) :
    (g.decl types).ty.image row =
      .record ((travelling g.choices row).map FieldValue.image) := by
  cases g with
  | derived d => exact congrArg Value.record (markedImages_eq d.item.choices row)
  | listed l =>
    have hmarked := Row.images_of_allMarked _ l.members_marked row
    exact congrArg Value.record (hmarked.trans (markedImages_eq l.choices row))

/-! ## Look-up -/

/-- Fields that are described one after the other are found at their own values. -/
theorem find?_describeFrom (name : String) (before : List Value) (xs : List (FieldValue types)) :
    (((describeFrom types before.length (xs.map fun x => (x.label, x.ty))).find?
      (·.name == name)).bind fun f => (before ++ xs.map FieldValue.image)[f.position]?) =
      (xs.find? (·.label.text == name)).map FieldValue.image := by
  -- What is passed over goes to `before`, so that positions stay as they are.
  induction xs generalizing before with
  | nil => rfl
  | cons x xs ih =>
    rw [List.map_cons, describeFrom, List.find?_cons, List.find?_cons]
    cases hname : x.label.text == name with
    | true => simp
    | false =>
      have hrest := ih (before ++ [x.image])
      rw [List.length_append, List.append_assoc] at hrest
      exact hrest

/-- A name is looked up in the image of a row as it is among the fields that travel. -/
theorem Generated.field?_image (g : Generated) (row : (g.decl types).Val) (name : String) :
    ((g.decl types).ty.image row).field? (g.shape types) name =
      ((travelling g.choices row).find? (·.label.text == name)).map FieldValue.image := by
  have hfind := find?_describeFrom name [] (travelling g.choices row)
  rw [travelling_signature] at hfind
  rw [g.image_eq, Generated.shape, g.fields_eq]
  exact hfind

/-! ## Names -/

theorem nodup_texts {fields : Fields} (h : fields.Distinct) :
    (fields.toList.map fun f => f.label.text).Nodup := by
  have hbindings := nodup_bindings h
  cases fields with
  | named fields =>
    have hnames : ((Fields.named fields).toList.map fun f => f.label.binding) =
        ((Fields.named fields).toList.map fun f => f.label.text).map
          fun text => "__field_" ++ Label.bareName text := by
      simp [Fields.toList, Label.binding, Label.text]
    rw [hnames] at hbindings
    exact hbindings.of_map
  | tuple fields =>
    have hindices : ((Fields.tuple fields).toList.map fun f => f.label.binding) =
        ((Fields.tuple fields).toList.map fun f => f.label.text).map ("__field_" ++ ·) := by
      simp [Fields.toList, Label.binding, Label.text]
    rw [hindices] at hbindings
    exact hbindings.of_map
  | unit => exact List.nodup_nil

theorem Generated.nodup_texts (g : Generated) :
    (g.choices.map fun c => c.1.label.text).Nodup := by
  cases g with
  | derived d =>
    rw [choices, Item.choices, List.map_map]
    exact Derive.nodup_texts d.distinct
  | listed l =>
    have hparameters : (l.choices.map fun c => c.1.label.parameter) =
        (l.choices.map fun c => c.1.label.text).map Label.bareName := by
      rw [List.map_map]
      rfl
    have hnodup := l.nodup_parameters
    rw [hparameters] at hnodup
    exact hnodup.of_map

theorem fieldValues_texts : (choices : List (Field × Bool)) → (row : RowOf types choices) →
    (fieldValues choices row).map (·.label.text) = choices.map fun c => c.1.label.text
  | [], _ => rfl
  | (_, _) :: choices, (_, row) => congrArg (_ :: ·) (fieldValues_texts choices row)

/-- Under distinct names a field is found among those that travel just if it travels. -/
theorem find?_filter_marked {xs : List (FieldValue types)}
    (hnodup : (xs.map (·.label.text)).Nodup) {x : FieldValue types} (hx : x ∈ xs) :
    (xs.filter (·.marked)).find? (·.label.text == x.label.text) =
      if x.marked then some x else none := by
  cases hfind : (xs.filter (·.marked)).find? (·.label.text == x.label.text) with
  | none =>
    cases hmarked : x.marked with
    | false => rfl
    | true =>
      have hnone := List.find?_eq_none.1 hfind x (List.mem_filter.2 ⟨hx, hmarked⟩)
      simp at hnone
  | some y =>
    obtain ⟨hy, hmarked⟩ := List.mem_filter.1 (List.mem_of_find?_eq_some hfind)
    have hfound := List.find?_some hfind
    have hname : y.label.text = x.label.text := eq_of_beq hfound
    obtain rfl := List.inj_on_of_nodup_map hnodup hy hx hname
    rw [hmarked, if_pos rfl]

/-! ## Generated code -/

namespace Generated

theorem reflect_eq (g : Generated) (row : (g.decl types).Val) :
    g.reflect types row = some ((g.decl types).ty.reflect row) := by
  rw [reflect, encode_eq, shape_eq]
  rfl

theorem unmarshal_shape [Defaults] {g : Generated} {row : (g.decl types).Val} {buffer rest : Bytes}
    {es : List Event} (h : g.unmarshal types buffer = ⟨.ok (some row, rest), es⟩) :
    (g.shape types).unmarshal buffer = ⟨.ok ((g.decl types).ty.image row, rest), es⟩ := by
  rw [unmarshal, decode_eq, Reader.front_some_eq_ok] at h
  have hread : (g.shape types).decode.front buffer =
      ⟨.ok ((g.decl types).ty.image row, rest), es⟩ := by
    rw [shape_eq, Reader.front_eq_ok, Ty.decode_shape]
    exact Reader.map_of_ok _ h
  exact hread

/-- Look-up by name agrees with the record. A dynamic value made of a record is its image, and
nothing is reported, if the record can be written and all lists in the image have bytes enough
behind their counts; otherwise a length does not fit, or bytes are missing behind the count of the
first list that has too few. In the image, and so in what is read under the shape wherever the
record is read, the name of a marked field finds the image of that field, and no other name finds
anything. -/
theorem field_by_name [Defaults] (types : String → Ty) (g : Generated) (row : (g.decl types).Val) :
    let shape := g.shape types
    let image := Value.record ((travelling g.choices row).map FieldValue.image)
    let lists := image.heads shape 0
    let covered := ∀ l ∈ lists, l.count ≤ l.room
    (∃ written reflected, g.encode types row = some written ∧
      g.reflect types row = some reflected ∧
      (written.fault? = none → covered → reflected = ⟨.ok image, []⟩) ∧
      (∀ e, written.fault? = some e →
        reflected = ⟨.error e, []⟩ ∧ ∃ n, e = .lengthOverflow n) ∧
      (written.fault? = none → ¬ covered → ∃ l, ListHead.firstUncovered? lists = some l ∧
        reflected.result = .error (.insufficientBytes l.count l.room))) ∧
    (∀ buffer rest es, g.unmarshal types buffer = ⟨.ok (some row, rest), es⟩ →
      shape.unmarshal buffer = ⟨.ok (image, rest), es⟩) ∧
    (∀ x ∈ fieldValues g.choices row,
      image.field? shape x.label.text = if x.marked then some x.image else none) ∧
    ∀ name, (∀ x ∈ fieldValues g.choices row, x.label.text ≠ name) →
      image.field? shape name = none := by
  intro shape image lists covered
  have himage : (g.decl types).ty.image row = image := g.image_eq row
  have hshape : shape = (g.decl types).ty.shape := g.shape_eq types
  have hlists : ((g.decl types).ty.image row).heads (g.decl types).ty.shape 0 = lists := by
    rw [himage, ← hshape]
  refine ⟨⟨_, _, g.encode_eq types row, g.reflect_eq row, ?_, fun e h => Ty.reflect_of_fault h, ?_⟩,
    ?_, ?_, ?_⟩
  · intro hok hcovered
    have hwritten := Emission.toExcept_eq_ok.2 ⟨hok, rfl⟩
    rw [Ty.reflect_of_covered hwritten (by rwa [hlists]), himage]
  · intro hok huncovered
    have hwritten := Emission.toExcept_eq_ok.2 ⟨hok, rfl⟩
    obtain ⟨l, hl⟩ := Option.ne_none_iff_exists'.1
      (mt ListHead.firstUncovered?_eq_none_iff.1 huncovered)
    exact ⟨l, hl, Ty.reflect_of_uncovered hwritten (by rwa [hlists])⟩
  · intro buffer rest es h
    rw [← himage]
    exact unmarshal_shape h
  · intro x hx
    have hnodup : ((fieldValues g.choices row).map (·.label.text)).Nodup := by
      rw [fieldValues_texts]
      exact g.nodup_texts
    have hfind := find?_filter_marked hnodup hx
    rw [← himage, g.field?_image, travelling, hfind]
    cases x.marked <;> rfl
  · intro name h
    have hnone : (travelling g.choices row).find? (·.label.text == name) = none :=
      List.find?_eq_none.2 fun x hx heq => h x (List.mem_of_mem_filter hx) (eq_of_beq heq)
    rw [← himage, g.field?_image, hnone]
    rfl

section

attribute [local instance] Defaults.zero

/-- Fields 1 and 3 of a tuple travel and are found by these names, at positions 0 and 1. A list of
one empty mark has no byte behind its count, and one that is too long for a count is not written. -/
theorem field_by_name_interleaved_fields :
    let mark : Attribute := ⟨"streamable", true⟩
    let types : String → Ty := fun ty =>
      if ty = "u8" then .u8 else if ty = "u16" then .u16 else .list (.array 0)
    let quad : Derived := {
      item := ⟨.struct, "Quad", [], [], .tuple
        [⟨"u8", []⟩, ⟨"u16", [mark]⟩, ⟨"u8", []⟩, ⟨"u8", [mark]⟩]⟩
      expansion := {
        name := "Quad"
        params := []
        conditions := []
        decodes := [("__field_1", "u16"), ("__field_3", "u8")]
        construction := .tuple [.default, .bound "__field_1", .default, .bound "__field_3"]
        encodes := [.index 1, .index 3]
        descriptors := [⟨"1", 0, "u16"⟩, ⟨"3", 1, "u8"⟩] }
      distinct := trivial
      expand_eq := rfl }
    let marks : Generated := .listed ⟨"Marks", [("marks", "Vec < [u8 ; 0] >")], by decide⟩
    let row : RowOf types quad.item.choices :=
      ((9 : UInt8), (258 : UInt16), (8 : UInt8), (3 : UInt8), ())
    let image : Value := .record [.u16 258, .u8 3]
    let shape : Shape := .record "Quad" [⟨"1", 0, .u16⟩, ⟨"3", 1, .u8⟩]
    (Generated.derived quad).reflect types row = some ⟨.ok image, []⟩ ∧
    shape.unmarshal [1, 2, 3, 4] = ⟨.ok (image, [4]), []⟩ ∧
    image.field? shape "1" = some (.u16 258) ∧ image.field? shape "2" = none ∧
    image.field? shape "3" = some (.u8 3) ∧ image.field? shape "4" = none ∧
    (∃ row reflected, marks.reflect types row = some reflected ∧
      reflected.result = .error (.insufficientBytes 1 0)) ∧
    ∃ row n, marks.reflect types row = some ⟨.error (.lengthOverflow n), []⟩ := by
  intro mark types quad marks row image shape
  let restored : RowOf types quad.item.choices :=
    ((0 : UInt8), (258 : UInt16), (0 : UInt8), (3 : UInt8), ())
  let one : (marks.decl types).Val := ([Block.zero 0], ())
  refine ⟨?_, ?_, ?_, ?_, ?_, ?_, ?_, ?_⟩
  · obtain ⟨⟨written, reflected, hencode, hreflect, hok, -⟩, -⟩ :=
      field_by_name types (.derived quad) row
    have hwritten : (Generated.derived quad).encode types row = some ⟨[[1, 2], [3]], none⟩ := rfl
    obtain rfl := Option.some.inj (hencode.symm.trans hwritten)
    rw [hreflect, hok rfl nofun]
    rfl
  · obtain ⟨-, hunmarshal, -⟩ := field_by_name types (.derived quad) restored
    exact hunmarshal [1, 2, 3, 4] [4] [] rfl
  · obtain ⟨-, -, hfields, -⟩ := field_by_name types (.derived quad) row
    exact hfields ⟨.index 1, true, "u16", (258 : UInt16)⟩ (.tail _ (.head _))
  · obtain ⟨-, -, hfields, -⟩ := field_by_name types (.derived quad) row
    exact hfields ⟨.index 2, false, "u8", (8 : UInt8)⟩ (.tail _ (.tail _ (.head _)))
  · obtain ⟨-, -, hfields, -⟩ := field_by_name types (.derived quad) row
    exact hfields ⟨.index 3, true, "u8", (3 : UInt8)⟩ (.tail _ (.tail _ (.tail _ (.head _))))
  · obtain ⟨-, -, -, hnone⟩ := field_by_name types (.derived quad) row
    have hnames : ∀ text ∈ (fieldValues quad.item.choices row).map (·.label.text), text ≠ "4" := by
      show ∀ text ∈ ["0", "1", "2", "3"], text ≠ "4"
      decide
    exact hnone "4" fun x hx => hnames _ (List.mem_map_of_mem hx)
  · obtain ⟨⟨written, reflected, hencode, hreflect, -, -, hshort⟩, -⟩ :=
      field_by_name types marks one
    have hwritten : marks.encode types one = some ⟨[[0, 0, 0, 1], []], none⟩ := rfl
    obtain rfl := Option.some.inj (hencode.symm.trans hwritten)
    have huncovered : ¬ ∀ l ∈ [(⟨.fixedBytes 0, 1, 0⟩ : ListHead)], l.count ≤ l.room := by decide
    obtain ⟨l, hl, hresult⟩ := hshort rfl huncovered
    have hfirst : ListHead.firstUncovered? [⟨.fixedBytes 0, 1, 0⟩] = some ⟨.fixedBytes 0, 1, 0⟩ :=
      rfl
    obtain rfl := Option.some.inj (hl.symm.trans hfirst)
    exact ⟨one, reflected, hreflect, hresult⟩
  · obtain ⟨n, hn⟩ : ∃ n, BigEndian.capacity 4 ≤ n := ⟨_, Nat.le_refl _⟩
    let many : (marks.decl types).Val := (List.replicate n (Block.zero 0), ())
    obtain ⟨⟨written, reflected, hencode, hreflect, -, hlong, -⟩, -⟩ :=
      field_by_name types marks many
    let items : List Emission := (List.replicate n (Block.zero 0)).map (Ty.array 0).encode
    have hwritten : marks.encode types many = some (Emission.list items ++ .done) :=
      marks.encode_eq types many
    obtain rfl := Option.some.inj (hencode.symm.trans hwritten)
    have hlen : items.length = n := by rw [List.length_map, List.length_replicate]
    have hfault : (Emission.list items ++ .done).fault? = some (.lengthOverflow n) := by
      rw [Emission.list_of_overflow (by rw [hlen]; exact Nat.not_lt.2 hn), hlen]
      rfl
    exact ⟨many, n, by rw [hreflect, (hlong _ hfault).1]⟩

end

end Generated

end Derive

end PeerWire
