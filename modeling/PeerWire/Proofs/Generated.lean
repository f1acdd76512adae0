import PeerWire.Proofs.ByteLists
import PeerWire.Proofs.Listed

/-!
# Generated codecs

What generated code does depends on the name of its record and on the fields that travel, each a
label with the text of a type (`Generated.wire`), and not on the way it was generated or on the
fields that stay behind. So a listing does what is derived from an item with the same fields, all
marked, and an item with unmarked fields in between agrees with the listing of the others. Main
statement: `listing_agrees_with_derivation`.
-/

namespace PeerWire.Derive

/-! ## Rows by their travelling fields -/

section

variable {types : String → Ty}

/-- The fields that travel, each with the text of its type. -/
def signature (choices : List (Field × Bool)) : List (Label × String) :=
  (wireOf choices).map fun f => (f.label, f.ty)

theorem travelling_signature : (choices : List (Field × Bool)) → (row : RowOf types choices) →
    (travelling choices row).map (fun x => (x.label, x.ty)) = signature choices
  | [], _ => rfl
  | (_, true) :: choices, (_, row) => congrArg (_ :: ·) (travelling_signature choices row)
  | (_, false) :: choices, (_, row) => travelling_signature choices row

theorem travelling_of_allMarked : (choices : List (Field × Bool)) → (∀ c ∈ choices, c.2 = true) →
    (row : RowOf types choices) → travelling choices row = fieldValues choices row
  | [], _, _ => rfl
  | (_, true) :: choices, h, (_, row) =>
    congrArg (_ :: ·)
      (travelling_of_allMarked choices (fun c hc => h c (List.mem_cons_of_mem _ hc)) row)
  | (_, false) :: _, h, _ => nomatch h _ List.mem_cons_self

theorem exists_travelling_eq [Defaults] : (choices : List (Field × Bool)) →
    (xs : List (FieldValue types)) →
    (∀ x ∈ xs, x.marked = true) → xs.map (fun x => (x.label, x.ty)) = signature choices →
    ∃ row : RowOf types choices, travelling choices row = xs
  | [], xs, _, h => ⟨(), (List.map_eq_nil_iff.1 h).symm⟩
  | (f, true) :: choices, xs, hmarked, h => by
    obtain ⟨x, xs, rfl, hx, hxs⟩ := List.map_eq_cons_iff.1 h
    obtain ⟨hfirst, hmarked⟩ := List.forall_mem_cons.1 hmarked
    obtain ⟨row, rfl⟩ := exists_travelling_eq choices xs hmarked hxs
    obtain ⟨label, marked, ty, v⟩ := x
    obtain ⟨rfl, rfl⟩ := Prod.mk.inj hx
    obtain rfl : marked = true := hfirst
    exact ⟨(v, row), rfl⟩
  | (f, false) :: choices, xs, hmarked, h => by
    obtain ⟨row, hrow⟩ := exists_travelling_eq choices xs hmarked h
    exact ⟨((types f.ty).default, row), hrow⟩

/-! ## Codecs of the travelling fields -/

theorem encodeMarked_eq : (choices : List (Field × Bool)) → (row : RowOf types choices) →
    Row.encodeMarked _ row =
      Emission.concat ((travelling choices row).map fun x => (types x.ty).encode x.value)
  | [], _ => rfl
  | (f, true) :: choices, (v, row) =>
    congrArg ((types f.ty).encode v ++ ·) (encodeMarked_eq choices row)
  | (_, false) :: choices, (_, row) => encodeMarked_eq choices row

variable (types)

/-- Reads a value for each field of a signature. -/
def readEach [Defaults] : List (Label × String) → Reader (List (FieldValue types))
  | [] => return []
  | (label, ty) :: fields => do
    let v ← (types ty).decode
    return ⟨label, true, ty, v⟩ :: (← readEach fields)

theorem travelling_decode [Defaults] : (choices : List (Field × Bool)) →
    (fun row => travelling choices (MarkedRow.complete _ row)) <$>
      MarkedRow.decode (choices.map (member types)) = readEach types (signature choices)
  | [] => rfl
  | (f, true) :: choices => by
    have hcons (v : (types f.ty).Val) (row : MarkedRow (choices.map (member types))) :
        travelling ((f, true) :: choices)
          (MarkedRow.complete (((f, true) :: choices).map (member types)) (v, row)) =
          ⟨f.label, true, f.ty, v⟩ :: travelling choices (MarkedRow.complete _ row) := rfl
    calc (fun row => travelling ((f, true) :: choices) (MarkedRow.complete _ row)) <$>
          (do return (← (types f.ty).decode, ← MarkedRow.decode (choices.map (member types))))
        = (do
          let v ← (types f.ty).decode
          let xs ← (fun row => travelling choices (MarkedRow.complete _ row)) <$>
            MarkedRow.decode (choices.map (member types))
          return ⟨f.label, true, f.ty, v⟩ :: xs) := by
          simp [hcons]
      _ = readEach types (signature ((f, true) :: choices)) := by
          rw [travelling_decode choices]
          rfl
  | (_, false) :: choices => travelling_decode choices

/-! ## Descriptions -/

/-- Descriptions of the fields of a signature, numbered from `position`. -/
def describeFrom (position : Nat) : List (Label × String) → List PeerWire.Field
  | [] => []
  | (label, ty) :: fields =>
    ⟨label.text, position, (types ty).shape⟩ :: describeFrom (position + 1) fields

theorem describe_eq (fields : List (String × String)) (described : List PeerWire.Field) :
    describe types fields described = described ++
      describeFrom types described.length (fields.map fun (name, ty) => (.name name, ty)) := by
  induction fields generalizing described with
  | nil => exact (List.append_nil described).symm
  | cons field fields ih =>
    rw [describe, ih, List.length_append, List.append_assoc]
    rfl

theorem descriptors_eq (wire : List Field) (position : Nat) :
    ((wire.zipIdx position).map fun (f, position) =>
      (⟨f.label.text, position, (types f.ty).shape⟩ : PeerWire.Field)) =
      describeFrom types position (wire.map fun f => (f.label, f.ty)) := by
  induction wire generalizing position with
  | nil => rfl
  | cons f wire ih => exact congrArg (_ :: ·) (ih (position + 1))

theorem Fields.label_of_named (fields : List (String × Slot)) :
    ∀ f ∈ (named fields).toList, f.label = .name f.label.text :=
  List.forall_mem_map.2 fun _ _ => rfl

/-- The fields without a name are labelled by their index among all, from `index` on. -/
def Numbered (index : Nat) : List (Field × Bool) → Prop
  | [] => True
  | (f, _) :: choices =>
    f.label.name?.getD (toString index) = f.label.text ∧ Numbered (index + 1) choices

theorem numbered_of_names {choices : List (Field × Bool)}
    (h : ∀ c ∈ choices, c.1.label = .name c.1.label.text) (index : Nat) :
    Numbered index choices := by
  induction choices generalizing index with
  | nil => trivial
  | cons c choices ih =>
    obtain ⟨hc, h⟩ := List.forall_mem_cons.1 h
    refine ⟨?_, ih h (index + 1)⟩
    rw [hc]
    rfl

theorem numbered_tuple (index : Nat) (fields : List Slot) (marked : Field → Bool) :
    Numbered index (((fields.zipIdx index).map fun (s, i) =>
      (⟨.index i, s.ty, s.attributes⟩ : Field)).map fun f => (f, marked f)) := by
  induction fields generalizing index with
  | nil => trivial
  | cons s fields ih => exact ⟨rfl, ih (index + 1)⟩

theorem selectionFields_members (index position : Nat) : (choices : List (Field × Bool)) →
    Numbered index choices →
    selectionFields index position (choices.map (member types)) =
      describeFrom types position (signature choices)
  | [], _ => rfl
  | (f, true) :: choices, ⟨hlabel, h⟩ => by
    have ih := selectionFields_members (index + 1) (position + 1) choices h
    rw [List.map_cons, selectionFields, ih, Member.label, hlabel]
    rfl
  | (_, false) :: choices, ⟨_, h⟩ => selectionFields_members (index + 1) position choices h

end

/-! ## Either way -/

theorem Item.numbered (item : Item) : Numbered 0 item.choices := by
  unfold Item.choices
  cases item.fields with
  | named fields => exact numbered_of_names (List.forall_mem_map.2 (Fields.label_of_named fields)) 0
  | tuple fields => exact numbered_tuple 0 fields Field.travels
  | unit => trivial

theorem Listing.numbered (l : Listing) : Numbered 0 l.choices :=
  numbered_of_names (List.forall_mem_map.2 fun _ _ => rfl) 0

theorem Derived.expansion_eq (d : Derived) :
    d.expansion = d.item.transfer (wireOf d.item.choices) := by
  obtain ⟨hstruct, -⟩ := expand_eq_ok_iff.1 d.expand_eq
  have hexpand := d.expand_eq
  rw [expand_of_struct hstruct] at hexpand
  cases hselect : select d.item.fields.toList with
  | error e =>
    rw [hselect] at hexpand
    cases hexpand
  | ok wire =>
    rw [hselect] at hexpand
    obtain rfl := select_eq_ok hselect
    exact (Except.ok.inj hexpand).symm

namespace Generated

variable (types : String → Ty)

/-- The fields that travel, each with the text of its type. -/
def wire (g : Generated) : List (Label × String) := signature g.choices

theorem wire_derived (d : Derived) : (derived d).wire =
    (d.item.fields.toList.filter Field.travels).map fun f => (f.label, f.ty) := by
  rw [wire, signature, choices, Item.choices, wireOf_map]

theorem wire_listed (l : Listing) :
    (listed l).wire = l.fields.map fun (name, ty) => (.name name, ty) := by
  rw [wire, signature, choices, l.wireOf_choices, List.map_map]
  rfl

theorem numbered (g : Generated) : Numbered 0 g.choices := by
  cases g with
  | derived d => exact d.item.numbered
  | listed l => exact l.numbered

theorem typeName_eq (g : Generated) : g.typeName = g.name := by
  cases g with
  | derived d => exact congrArg Expansion.name d.expansion_eq
  | listed l => rfl

theorem fields_eq (g : Generated) : g.fields types = describeFrom types 0 g.wire := by
  cases g with
  | derived d =>
    rw [fields, d.expansion_eq, Item.transfer, List.map_map]
    exact descriptors_eq types _ 0
  | listed l =>
    rw [fields, describe_eq, wire_listed]
    rfl

theorem fields_decl (g : Generated) : (g.decl types).fields = describeFrom types 0 g.wire := by
  have hselection := selectionFields_members types 0 0 g.choices g.numbered
  cases g with
  | derived d => exact hselection
  | listed l => exact (listingFields_of_allMarked 0 _ l.members_marked).trans hselection

/-- What the code describes is the shape of the declaration. -/
theorem shape_eq (g : Generated) : g.shape types = (g.decl types).ty.shape := by
  rw [Decl.shape_ty, Decl.shape, fields_decl, shape, typeName_eq, fields_eq]

theorem decode_eq [Defaults] (g : Generated) :
    g.decode types = some <$> (g.decl types).ty.decode := by
  cases g with
  | derived d => exact d.decode_eq types
  | listed l => exact l.decode_eq types

theorem encode_eq (g : Generated) (row : (g.decl types).Val) :
    g.encode types row = some ((g.decl types).ty.encode row) := by
  cases g with
  | derived d => exact d.encode_eq types row
  | listed l => exact l.encode_eq types row

/-! ### The code by the fields that travel -/

theorem encode_eq_concat (g : Generated) (row : (g.decl types).Val) :
    g.encode types row = some (Emission.concat
      ((travelling g.choices row).map fun x => (types x.ty).encode x.value)) := by
  rw [encode_eq, ← encodeMarked_eq]
  cases g with
  | derived d => rfl
  | listed l => exact congrArg some (Row.encode_of_allMarked _ l.members_marked row)

theorem map_decode [Defaults] (g : Generated) :
    Option.map (travelling g.choices) <$> g.decode types = some <$> readEach types g.wire := by
  have hcomplete : (g.decl types).ty.decode =
      MarkedRow.complete _ <$> MarkedRow.decode (g.choices.map (member types)) := by
    cases g with
    | derived d => exact bind_pure_comp _ _
    | listed l => exact Row.decode_of_allMarked _ l.members_marked
  rw [decode_eq, hcomplete, wire, ← travelling_decode]
  simp

theorem exists_partner [Defaults] {g g' : Generated} (h : g.wire = g'.wire)
    (row : (g.decl types).Val) :
    ∃ row' : (g'.decl types).Val, travelling g.choices row = travelling g'.choices row' := by
  have hmarked : ∀ x ∈ travelling g.choices row, x.marked = true := fun x hx =>
    (List.mem_filter.1 hx).2
  have hsignature := travelling_signature g.choices row
  obtain ⟨row', hrow'⟩ := exists_travelling_eq g'.choices _ hmarked (hsignature.trans h)
  exact ⟨row', hrow'.symm⟩

/-- The code of either describes its record alike, writes the same for the same travelling fields,
and from any cursor reads the same travelling fields or fails with the same error, reports the same
and stops at the same place. What it reads is a record, and each record of one has a partner among
those of the other. -/
structure Agree [Defaults] (g g' : Generated) : Prop where
  typeName : g.typeName = g'.typeName
  fields : g.fields types = g'.fields types
  shape : g.shape types = g'.shape types
  partner : ∀ row : (g.decl types).Val, ∃ row' : (g'.decl types).Val,
    travelling g.choices row = travelling g'.choices row'
  partner' : ∀ row' : (g'.decl types).Val, ∃ row : (g.decl types).Val,
    travelling g.choices row = travelling g'.choices row'
  encode : ∀ (row : (g.decl types).Val) (row' : (g'.decl types).Val),
    travelling g.choices row = travelling g'.choices row' →
      ∃ a, g.encode types row = some a ∧ g'.encode types row' = some a
  decode : ∀ c : Cursor,
    (c.run (g.decode types)).1.map (Option.map (travelling g.choices)) =
      (c.run (g'.decode types)).1.map (Option.map (travelling g'.choices))
  cursor : ∀ c : Cursor, (c.run (g.decode types)).2 = (c.run (g'.decode types)).2
  total : ∀ c : Cursor, (c.run (g.decode types)).1.result ≠ .ok none ∧
    (c.run (g'.decode types)).1.result ≠ .ok none

theorem decode_ne_none [Defaults] (g : Generated) (c : Cursor) :
    (c.run (g.decode types)).1.result ≠ .ok none := by
  rw [decode_eq, Cursor.run_map]
  show (c.run (g.decl types).ty.decode).1.result.map some ≠ _
  cases (c.run (g.decl types).ty.decode).1.result <;> nofun

theorem agree_of_wire [Defaults] {g g' : Generated} (hname : g.name = g'.name)
    (hwire : g.wire = g'.wire) : Agree types g g' := by
  have htypeName : g.typeName = g'.typeName := by rw [typeName_eq, typeName_eq, hname]
  have hfields : g.fields types = g'.fields types := by rw [fields_eq, fields_eq, hwire]
  have hdecode (c : Cursor) : c.run (Option.map (travelling g.choices) <$> g.decode types) =
      c.run (Option.map (travelling g'.choices) <$> g'.decode types) := by
    rw [map_decode, map_decode, hwire]
  constructor
  case typeName => exact htypeName
  case fields => exact hfields
  case shape => rw [Generated.shape, Generated.shape, htypeName, hfields]
  case partner => exact exists_partner types hwire
  case partner' =>
    intro row'
    obtain ⟨row, hrow⟩ := exists_partner types hwire.symm row'
    exact ⟨row, hrow.symm⟩
  case encode =>
    intro row row' h
    exact ⟨_, g.encode_eq_concat types row, by rw [h, encode_eq_concat]⟩
  case decode =>
    intro c
    have hrun := congrArg Prod.fst (hdecode c)
    rwa [Cursor.run_map, Cursor.run_map] at hrun
  case cursor =>
    intro c
    have hrun := congrArg Prod.snd (hdecode c)
    rwa [Cursor.run_map, Cursor.run_map] at hrun
  case total => exact fun c => ⟨g.decode_ne_none types c, g'.decode_ne_none types c⟩

end Generated

/-! ## Listings and items -/

/-- A mark on its own. -/
theorem wellMarked_mark : WellMarked [⟨marker, true⟩] := ⟨by simp, by decide⟩

theorem Listing.toList_item (l : Listing) : l.item.fields.toList =
    l.fields.map fun (name, ty) => ⟨.name name, ty, [⟨marker, true⟩]⟩ := by
  rw [item, Fields.toList, List.map_map]
  rfl

theorem Listing.wellMarked_item (l : Listing) :
    ∀ f ∈ l.item.fields.toList, WellMarked f.attributes := by
  rw [toList_item]
  exact List.forall_mem_map.2 fun _ _ => wellMarked_mark

theorem Listing.travels_item (l : Listing) : ∀ f ∈ l.item.fields.toList, f.travels = true := by
  intro f hf
  rw [Field.travels, Field.marked_of_wellMarked (l.wellMarked_item f hf)]
  rw [toList_item] at hf
  obtain ⟨_, _, rfl⟩ := List.mem_map.1 hf
  rfl

/-- The struct that a listing amounts to, as derivation accepts it. -/
theorem Listing.exists_derived (l : Listing) : ∃ d : Derived, d.item = l.item := by
  have hdistinct : l.item.fields.Distinct := by
    show (List.map _ (List.map _ _)).Nodup
    rw [List.map_map]
    exact l.distinct
  exact ⟨⟨l.item, _, hdistinct, expand_eq_ok_iff.2 ⟨rfl, l.wellMarked_item, rfl⟩⟩, rfl⟩

theorem Generated.wire_of_item_eq {l : Listing} {d : Derived} (h : d.item = l.item) :
    (derived d).wire = (listed l).wire := by
  rw [wire_derived, wire_listed, h, List.filter_eq_self.2 l.travels_item, l.toList_item,
    List.map_map]
  rfl

/-- The listing of those fields of a struct with names that travel. -/
theorem Derived.exists_listing {d : Derived} {fields : List (String × Slot)}
    (h : d.item.fields = .named fields) : ∃ l : Listing, l.name = d.item.name ∧
      l.fields = (d.item.fields.toList.filter Field.travels).map fun f => (f.label.text, f.ty) := by
  have hdistinct : (((d.item.fields.toList.filter Field.travels).map
      fun f => (f.label.text, f.ty)).map fun (name, _) => Label.bareName name).Nodup := by
    have hnames : (d.item.fields.toList.map fun f => Label.bareName f.label.text).Nodup := by
      have hitem := d.distinct
      rw [h] at hitem ⊢
      rw [Fields.toList, List.map_map]
      exact hitem
    rw [List.map_map]
    exact hnames.sublist (List.filter_sublist.map _)
  exact ⟨⟨_, _, hdistinct⟩, rfl, rfl⟩

theorem Generated.wire_of_fields_eq {l : Listing} {d : Derived} {fields : List (String × Slot)}
    (h : d.item.fields = .named fields)
    (hl : l.fields = (d.item.fields.toList.filter Field.travels).map fun f =>
      (f.label.text, f.ty)) : (derived d).wire = (listed l).wire := by
  have hnames : ∀ f ∈ d.item.fields.toList, f.label = .name f.label.text := by
    rw [h]
    exact Fields.label_of_named fields
  rw [wire_derived, wire_listed, hl, List.map_map]
  exact List.map_congr_left fun f hf =>
    congrArg (·, f.ty) (hnames f (List.mem_of_mem_filter hf))

/-- The two ways to generate a codec agree. The struct that a listing amounts to is accepted for
derivation if its fields are all marked; its code agrees with that of the listing, and each of its
values travels whole. Of any struct with names the listing of the fields that travel, under the same
name, agrees with the code that is derived from the whole struct. -/
theorem listing_agrees_with_derivation [Defaults] (types : String → Ty) :
    (∀ l : Listing, ∃ d : Derived, d.item = l.item ∧
      Generated.Agree types (.derived d) (.listed l) ∧
      (∀ row : RowOf types d.item.choices,
        travelling d.item.choices row = fieldValues d.item.choices row) ∧
      ∀ row : RowOf types l.choices, travelling l.choices row = fieldValues l.choices row) ∧
    ∀ (d : Derived) (fields : List (String × Slot)), d.item.fields = .named fields →
      ∃ l : Listing, l.name = d.item.name ∧
        l.fields = (d.item.fields.toList.filter Field.travels).map (fun f => (f.label.text, f.ty)) ∧
        Generated.Agree types (.derived d) (.listed l) := by
  constructor
  · intro l
    obtain ⟨d, hitem⟩ := l.exists_derived
    have hname : d.item.name = l.name := congrArg Item.name hitem
    have hmarked : ∀ c ∈ d.item.choices, c.2 = true := by
      rw [hitem]
      exact List.forall_mem_map.2 l.travels_item
    exact ⟨d, hitem, Generated.agree_of_wire types hname (Generated.wire_of_item_eq hitem),
      travelling_of_allMarked _ hmarked, travelling_of_allMarked _ l.choices_marked⟩
  · intro d fields h
    obtain ⟨l, hname, hfields⟩ := d.exists_listing h
    exact ⟨l, hname, hfields,
      Generated.agree_of_wire types hname.symm (Generated.wire_of_fields_eq h hfields)⟩

section

attribute [local instance] Defaults.zero

/-- The draft in the middle stays behind, so the listing of the others is read from three bytes, and
falls short of its number where the note does. -/
theorem listing_agrees_with_derivation_note_with_draft :
    let mark : Attribute := ⟨"streamable", true⟩
    let types : String → Ty := fun ty =>
      if ty = "u16" then .u16 else if ty = "bool" then .bool else .string
    let note : Derived := {
      item := ⟨.struct, "Note", [], [], .named
        [("at", ⟨"u16", [mark]⟩), ("draft", ⟨"String", []⟩),
          ("r#type", ⟨"bool", [⟨"doc", false⟩, mark]⟩)]⟩
      expansion := {
        name := "Note"
        params := []
        conditions := []
        decodes := [("__field_at", "u16"), ("__field_type", "bool")]
        construction := .named [("at", .bound "__field_at"), ("draft", .default),
          ("r#type", .bound "__field_type")]
        encodes := [.name "at", .name "r#type"]
        descriptors := [⟨"at", 0, "u16"⟩, ⟨"r#type", 1, "bool"⟩] }
      distinct := by show List.Nodup ["at", "draft", "type"]; decide
      expand_eq := rfl }
    let row : RowOf types note.item.choices := ((0x0102 : UInt16), "draft", true, ())
    let long := Cursor.ofBytes [1, 2, 7, 9]
    let short := Cursor.ofBytes [1]
    let sent : List (FieldValue types) :=
      [⟨.name "at", true, "u16", (0x0102 : UInt16)⟩, ⟨.name "r#type", true, "bool", true⟩]
    let written : Emission := ⟨[[1, 2], [1]], none⟩
    (Generated.derived note).encode types row = some written ∧
    ∃ l : Listing, l.fields = [("at", "u16"), ("r#type", "bool")] ∧
      (Generated.listed l).shape types = .record "Note" [⟨"at", 0, .u16⟩, ⟨"r#type", 1, .bool⟩] ∧
      (∃ row' : RowOf types l.choices, travelling l.choices row' = sent ∧
        (Generated.listed l).encode types row' = some written) ∧
      (long.run ((Generated.listed l).decode types)).1.map (Option.map (travelling l.choices)) =
        ⟨.ok (some sent), [.looseFlag 7]⟩ ∧
      (long.run ((Generated.listed l).decode types)).2.position = 3 ∧
      (short.run ((Generated.listed l).decode types)).1.map (Option.map (travelling l.choices)) =
        ⟨.error (.insufficientBytes 2 1), []⟩ := by
  intro mark types note row long short sent written
  obtain ⟨l, -, hfields, hagree⟩ := (listing_agrees_with_derivation types).2 note _ rfl
  obtain ⟨row', hrow'⟩ := hagree.partner row
  obtain ⟨a, hderived, hlisted⟩ := hagree.encode row row' hrow'
  have hwritten : (Generated.derived note).encode types row = some written := rfl
  refine ⟨hwritten, l, hfields, hagree.shape.symm, ⟨row', hrow'.symm, ?_⟩, ?_, ?_, ?_⟩
  · rw [hlisted, ← hderived, hwritten]
  · exact (hagree.decode long).symm
  · rw [← hagree.cursor]
    rfl
  · exact (hagree.decode short).symm

end

end PeerWire.Derive
