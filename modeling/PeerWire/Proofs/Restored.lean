import PeerWire.Proofs.Derived
import PeerWire.Proofs.Unique

/-!
# Restored records

What is read back of a written value is the value with its members that do not travel set to their
defaults, at every depth (`Ty.decode_encode_append_iff`): nothing that travels is lost or moved, and
nothing else survives. Of a whole type, whose members all travel, it is the value itself. Main
statement, for the code that is derived from an item: `Derived.unmarshal_append_iff_covered`.
-/

namespace PeerWire

/-! ## Whole types -/

mutual
/-- All members travel, at every depth. -/
def Ty.isWhole : Ty → Bool
  | .list t | .option t | .boxed t | .wrapper _ t => t.isWhole
  | .record .listing _ ms => allWhole ms
  | .record .selection _ ms => allMarkedWhole ms
  | _ => true
def allWhole : List (Member Ty) → Bool
  | [] => true
  | ⟨_, t, _⟩ :: ms => t.isWhole && allWhole ms
def allMarkedWhole : List (Member Ty) → Bool
  | [] => true
  | ⟨_, t, marked⟩ :: ms => marked && t.isWhole && allMarkedWhole ms
end

mutual
theorem Ty.strip_of_isWhole [Defaults] : (t : Ty) → t.isWhole = true → (v : t.Val) → t.strip v = v
  | .u8, _, _ | .u16, _, _ | .u32, _, _ | .u64, _, _ | .bool, _, _ | .string, _, _
  | .array _, _, _ | .option _, _, none => rfl
  | .list t, h, items => by
    have ih : ∀ v ∈ items, t.strip v = v := fun v _ => Ty.strip_of_isWhole t h v
    rw [Ty.strip, List.map_congr_left ih, List.map_id']
  | .option t, h, some v => congrArg some (Ty.strip_of_isWhole t h v)
  | .boxed t, h, v => congrArg Boxed.mk (Ty.strip_of_isWhole t h v.content)
  | .wrapper _ t, h, v => congrArg Wrapped.mk (Ty.strip_of_isWhole t h v.inner)
  | .record .listing _ ms, h, row => Row.strip_of_allWhole ms h row
  | .record .selection _ ms, h, row => Row.stripUnmarked_of_allMarkedWhole ms h row
theorem Row.strip_of_allWhole [Defaults] : (ms : List (Member Ty)) → allWhole ms = true →
    (row : Row ms) → Row.strip ms row = row
  | [], _, _ => rfl
  | ⟨_, t, _⟩ :: ms, h, (v, row) => by
    obtain ⟨ht, hms⟩ := Bool.and_eq_true_iff.1 h
    rw [Row.strip, Ty.strip_of_isWhole t ht v, Row.strip_of_allWhole ms hms row]
theorem Row.stripUnmarked_of_allMarkedWhole [Defaults] : (ms : List (Member Ty)) →
    allMarkedWhole ms = true → (row : Row ms) → Row.stripUnmarked ms row = row
  | [], _, _ => rfl
  | ⟨_, t, true⟩ :: ms, h, (v, row) => by
    obtain ⟨ht, hms⟩ := Bool.and_eq_true_iff.1 h
    rw [Row.stripUnmarked, Ty.strip_of_isWhole t ht v,
      Row.stripUnmarked_of_allMarkedWhole ms hms row]
  | ⟨_, _, false⟩ :: _, h, _ => by cases h
end

/-! ## Reading what was written -/

theorem Ty.exists_derivation {t : Ty} {v : t.Val} {e : Bytes} (h : (t.encode v).toExcept = .ok e) :
    ∃ d : Derivation t.shape e (t.image v), Value.Written d := by
  rw [← t.encode_image] at h
  exact Value.exists_derivation t.shape h

/-- A written value is read back stripped just if its lists are covered. -/
theorem Ty.decode_encode_append_iff [Defaults] {t : Ty} {v : t.Val} {e : Bytes}
    (h : (t.encode v).toExcept = .ok e) (rest : Bytes) :
    t.decode (e ++ rest) = ⟨.ok (t.strip v), rest, []⟩ ↔
      ∀ l ∈ (t.image v).heads t.shape rest.length, l.count ≤ l.room := by
  obtain ⟨d, hd⟩ := Ty.exists_derivation h
  rw [← hd.heads_eq]
  constructor
  · intro hread
    apply d.covered_of_decode
    rw [t.decode_shape, Reader.map_apply, hread]
    exact congrArg Except.ok (t.image_strip v)
  · intro hcovered
    have himage := d.decode_append rest hcovered
    rw [hd.silent, t.decode_shape] at himage
    obtain ⟨w, hread, hw⟩ := Reader.map_eq_ok.1 himage
    -- What was read has the image of `v`, and is stripped already.
    have hstrip : t.strip w = w := Ty.strip_of_decode (by rw [hread])
    rw [hread, ← hstrip, (t.image_eq_iff w v).1 hw]

theorem Ty.covered_of_minSize_pos {t : Ty} {v : t.Val} {e : Bytes}
    (h : (t.encode v).toExcept = .ok e) (hk : ∀ element ∈ t.shape.elements, 1 ≤ element.minSize)
    (after : Nat) : ∀ l ∈ (t.image v).heads t.shape after, l.count ≤ l.room := by
  obtain ⟨d, hd⟩ := Ty.exists_derivation h
  intro l hl
  rw [← hd.heads_eq] at hl
  exact d.covered_of_mem_heads hl (hk _ (d.element_mem hl))

/-! ## Derived records -/

namespace Derive

/-- Records that derived code has written, with any bytes behind them, are read back by derived code
just if their lists are covered: each member that travels as it was, all others as their defaults,
and the bytes behind untouched. What is read back is written in the same way again. Nothing is lost
of a whole type, and lists of elements that take up bytes are always covered. -/
theorem Derived.unmarshal_append_iff_covered [Defaults] (types : String → Ty) (d : Derived)
    (r : (d.item.decl types).Val) (e rest : Bytes) (h : d.marshal types r = some (.ok e)) :
    let t := (d.item.decl types).ty
    let restored := t.strip r
    let lists := (t.image r).heads t.shape rest.length
    (d.unmarshal types (e ++ rest) = ⟨.ok (some restored, rest), []⟩ ↔
      ∀ l ∈ lists, l.count ≤ l.room) ∧
    d.marshal types restored = some (.ok e) ∧
    t.image restored = t.image r ∧
    (t.isWhole = true → restored = r) ∧
    ((∀ element ∈ t.shape.elements, 1 ≤ element.minSize) → ∀ l ∈ lists, l.count ≤ l.room) := by
  intro t restored lists
  have hwritten : (t.encode r).toExcept = .ok e := by
    rw [d.marshal_eq] at h
    exact Option.some.inj h
  have hrestored : t.encode restored = t.encode r :=
    t.encode_eq_of_strip_eq ((t.image_eq_iff restored r).1 (t.image_strip r))
  refine ⟨?_, ?_, t.image_strip r, fun hwhole => t.strip_of_isWhole hwhole r,
    fun hk => Ty.covered_of_minSize_pos hwritten hk rest.length⟩
  · rw [Derived.unmarshal_eq_ok]
    exact Ty.decode_encode_append_iff hwritten rest
  · rw [d.marshal_eq, ← hwritten, ← hrestored]
    rfl

section

attribute [local instance] Defaults.zero

/-- Four empty marks are covered by the three bytes behind them and the one behind the note. The
draft does not travel, and neither does the middle of the pair, whose neighbours have its type. -/
theorem Derived.unmarshal_append_iff_covered_note_with_draft :
    let mark : Attribute := ⟨"streamable", true⟩
    let pair : Item := ⟨.struct, "Pair", [], [],
      .tuple [⟨"u8", [mark]⟩, ⟨"u8", []⟩, ⟨"u8", [mark]⟩]⟩
    let types : String → Ty := fun ty =>
      if ty = "String" then .string
      else if ty = "Vec < [u8 ; 0] >" then .list (.array 0)
      else .option (.boxed (pair.decl fun _ => .u8).ty)
    let note : Derived := {
      item := ⟨.struct, "Note", [], [], .named [
        ("marks", ⟨"Vec < [u8 ; 0] >", [mark]⟩), ("draft", ⟨"String", []⟩),
        ("r#type", ⟨"Option < Box < Pair > >", [⟨"doc", false⟩, mark]⟩)]⟩
      expansion := {
        name := "Note"
        params := []
        conditions := []
        decodes := [("__field_marks", "Vec < [u8 ; 0] >"),
          ("__field_type", "Option < Box < Pair > >")]
        construction := .named [("marks", .bound "__field_marks"), ("draft", .default),
          ("r#type", .bound "__field_type")]
        encodes := [.name "marks", .name "r#type"]
        descriptors := [⟨"marks", 0, "Vec < [u8 ; 0] >"⟩,
          ⟨"r#type", 1, "Option < Box < Pair > >"⟩] }
      distinct := by show List.Nodup ["marks", "draft", "type"]; decide
      expand_eq := rfl }
    let marks : List (Block 0) := List.replicate 4 (Block.zero 0)
    let r : (note.item.decl types).Val := (marks, "draft", some ⟨(1, 2, 3, ())⟩, ())
    let restored : (note.item.decl types).Val := (marks, "", some ⟨(1, 0, 3, ())⟩, ())
    let e : Bytes := [0, 0, 0, 4, 1, 1, 3]
    note.marshal types r = some (.ok e) ∧ note.marshal types restored = some (.ok e) ∧
    note.unmarshal types (e ++ [9]) = ⟨.ok (some restored, [9]), []⟩ ∧
    note.unmarshal types e ≠ ⟨.ok (some restored, []), []⟩ := by
  intro mark pair types note marks r restored e
  have hwritten : note.marshal types r = some (.ok e) := by decide +kernel
  obtain ⟨hlong, hagain, -⟩ := note.unmarshal_append_iff_covered types r e [9] hwritten
  obtain ⟨hshort, -⟩ := note.unmarshal_append_iff_covered types r e [] hwritten
  have hcovered : ∀ l ∈ ((note.item.decl types).ty.image r).heads
      (note.item.decl types).ty.shape 1, l.count ≤ l.room := by
    decide +kernel
  have huncovered : ¬ ∀ l ∈ ((note.item.decl types).ty.image r).heads
      (note.item.decl types).ty.shape 0, l.count ≤ l.room := by
    decide +kernel
  rw [List.append_nil] at hshort
  exact ⟨hwritten, hagain, hlong.2 hcovered, fun h => huncovered (hshort.1 h)⟩

end

end Derive

end PeerWire
