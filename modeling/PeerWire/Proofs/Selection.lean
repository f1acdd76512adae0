import Mathlib.Data.List.Induction
import PeerWire.Proofs.Derived

/-!
# Selection

For which items there is an expansion, which error there is for the others, and what an expansion
lists (`expand_exact`). An attribute is at fault because of itself or because of those in front of
it, so errors are stated by what stands before the first fault: fields without one, and in the field
at fault attributes without one.
-/

namespace PeerWire.Derive

/-! ## Marks -/

/-- An attribute with the path of the marker. -/
def Attribute.isMark (a : Attribute) : Bool := a.path = marker

/-- Attributes that mark a field at most once, and bare. -/
def WellMarked (as : List Attribute) : Prop :=
  (∀ a ∈ as, a.isMark → a.bare) ∧ as.countP Attribute.isMark ≤ 1

/-- What is wrong with an attribute behind others. A mark with arguments is not bare, even if it is
also a repetition. -/
inductive Offence (before : List Attribute) (a : Attribute) : DeriveError → Prop where
  | notBare : a.isMark → a.bare = false → Offence before a .notBare
  | repeatedMark : a.isMark → a.bare → before.any Attribute.isMark → Offence before a .repeatedMark

/-- The first attribute at fault is at fault for `e`. -/
def FirstOffence (as : List Attribute) (e : DeriveError) : Prop :=
  ∃ before a after, as = before ++ a :: after ∧ WellMarked before ∧ Offence before a e

theorem not_wellMarked_iff {as : List Attribute} :
    ¬ WellMarked as ↔ (∃ a ∈ as, a.isMark ∧ ¬ a.bare) ∨ 2 ≤ as.countP Attribute.isMark := by
  unfold WellMarked
  rw [not_and_or, Nat.not_le]
  simp only [Classical.not_forall, exists_prop, Nat.lt_iff_add_one_le]

theorem any_isMark_iff {as : List Attribute} :
    as.any Attribute.isMark ↔ 0 < as.countP Attribute.isMark := by
  rw [List.any_eq_true, List.countP_pos_iff]

theorem WellMarked.of_append {as bs : List Attribute} (h : WellMarked (as ++ bs)) :
    WellMarked as := by
  obtain ⟨hbare, honce⟩ := h
  rw [List.countP_append] at honce
  exact ⟨fun a ha => hbare a (List.mem_append_left _ ha), by omega⟩

theorem wellMarked_concat {as : List Attribute} {a : Attribute} :
    WellMarked (as ++ [a]) ↔
      WellMarked as ∧ (a.isMark → a.bare ∧ as.any Attribute.isMark = false) := by
  unfold WellMarked
  rw [List.countP_append, List.countP_singleton, List.forall_mem_append, List.forall_mem_singleton,
    ← Bool.not_eq_true, any_isMark_iff]
  by_cases hmark : a.isMark
  · rw [if_pos hmark, forall_prop_of_true hmark, forall_prop_of_true hmark]
    constructor
    · rintro ⟨⟨has, ha⟩, honce⟩
      exact ⟨⟨has, by omega⟩, ha, by omega⟩
    · rintro ⟨⟨has, -⟩, ha, hfirst⟩
      exact ⟨⟨has, ha⟩, by omega⟩
  · rw [if_neg hmark]
    constructor
    · rintro ⟨⟨has, -⟩, honce⟩
      exact ⟨⟨has, honce⟩, fun h => absurd h hmark⟩
    · rintro ⟨⟨has, honce⟩, -⟩
      exact ⟨⟨has, fun h => absurd h hmark⟩, honce⟩

theorem exists_offence_of_wellMarked {as : List Attribute} {a : Attribute} (has : WellMarked as)
    (h : ¬ WellMarked (as ++ [a])) : ∃ e, Offence as a e := by
  rw [wellMarked_concat, not_and, Classical.not_imp] at h
  obtain ⟨hmark, h⟩ := h has
  cases hbare : a.bare with
  | false => exact ⟨_, .notBare hmark hbare⟩
  | true =>
    cases hrepeated : as.any Attribute.isMark with
    | false => exact absurd ⟨hbare, hrepeated⟩ h
    | true => exact ⟨_, .repeatedMark hmark hbare hrepeated⟩

theorem exists_firstOffence {as : List Attribute} (h : ¬ WellMarked as) :
    ∃ e, FirstOffence as e := by
  -- From the back: if the attributes in front of the last are at fault, so is the first of them.
  induction as using List.reverseRecOn with
  | nil => exact absurd ⟨nofun, Nat.zero_le _⟩ h
  | append_singleton as a ih =>
    by_cases has : WellMarked as
    · obtain ⟨e, ha⟩ := exists_offence_of_wellMarked has h
      exact ⟨e, as, a, [], rfl, has, ha⟩
    · obtain ⟨e, before, b, after, rfl, hbefore, hb⟩ := ih has
      exact ⟨e, before, b, after ++ [a], by simp, hbefore, hb⟩

/-! ## The marks of one field -/

/-- Whether some attribute is a mark, whatever is wrong with the attributes. -/
def Field.hasMark (f : Field) : Bool := f.attributes.any Attribute.isMark

theorem markedAfter_of_offence {before : List Attribute} {a : Attribute} {e : DeriveError}
    (h : Offence before a e) (after : List Attribute) :
    markedAfter (before.any Attribute.isMark) (a :: after) = .error e := by
  unfold markedAfter
  cases h with
  | notBare hmark hargs =>
    rw [if_neg (not_not.2 (of_decide_eq_true hmark)), hargs]
    rfl
  | repeatedMark hmark hbare hrepeated =>
    rw [if_neg (not_not.2 (of_decide_eq_true hmark)), hbare, hrepeated]
    rfl

theorem markedAfter_of_wellMarked {before : List Attribute} {a : Attribute}
    (h : WellMarked (before ++ [a])) (after : List Attribute) :
    markedAfter (before.any Attribute.isMark) (a :: after) =
      markedAfter ((before ++ [a]).any Attribute.isMark) after := by
  obtain ⟨-, hmarked⟩ := wellMarked_concat.1 h
  rw [List.any_append, List.any_cons, List.any_nil, Bool.or_false]
  cases hmark : a.isMark with
  | false =>
    rw [Bool.or_false, markedAfter, if_pos (of_decide_eq_false hmark)]
  | true =>
    obtain ⟨hbare, hfirst⟩ := hmarked hmark
    rw [Bool.or_true, markedAfter, if_neg (not_not.2 (of_decide_eq_true hmark)), hbare, hfirst]
    rfl

theorem markedAfter_append (before : List Attribute) {mid : List Attribute}
    (h : WellMarked (before ++ mid)) (after : List Attribute) :
    markedAfter (before.any Attribute.isMark) (mid ++ after) =
      markedAfter ((before ++ mid).any Attribute.isMark) after := by
  -- What was passed goes to `before`, so the flag stays a statement about a list of attributes.
  induction mid generalizing before with
  | nil => rw [List.append_nil, List.nil_append]
  | cons a mid ih =>
    rw [List.append_cons] at h
    rw [List.cons_append, markedAfter_of_wellMarked h.of_append, ih _ h, ← List.append_cons]

theorem Field.marked_of_wellMarked {f : Field} (h : WellMarked f.attributes) :
    f.marked = .ok f.hasMark :=
  calc markedAfter false f.attributes = markedAfter false (f.attributes ++ []) := by
        rw [List.append_nil]
    _ = .ok f.hasMark := markedAfter_append [] h []

theorem Field.marked_of_firstOffence {f : Field} {e : DeriveError}
    (h : FirstOffence f.attributes e) : f.marked = .error e := by
  obtain ⟨before, a, after, hsplit, hmarks, hoffence⟩ := h
  have hrun := markedAfter_append [] hmarks (a :: after)
  rw [Field.marked, hsplit]
  exact hrun.trans (markedAfter_of_offence hoffence after)

/-! ## The marked fields -/

/-- The first field at fault has attributes at fault for `e`. -/
def FirstFault (fields : List Field) (e : DeriveError) : Prop :=
  ∃ before f after, fields = before ++ f :: after ∧ (∀ g ∈ before, WellMarked g.attributes) ∧
    FirstOffence f.attributes e

theorem select_append {before : List Field} (h : ∀ g ∈ before, WellMarked g.attributes)
    (fields : List Field) :
    select (before ++ fields) = (before.filter Field.hasMark ++ ·) <$> select fields := by
  induction before with
  | nil => simp
  | cons f before ih =>
    obtain ⟨hf, h⟩ := List.forall_mem_cons.1 h
    rw [List.cons_append, select, Field.marked_of_wellMarked hf, ih h, List.filter_cons]
    cases select fields with
    | error e => rfl
    | ok wire => cases f.hasMark <;> rfl

theorem select_of_wellMarked {fields : List Field} (h : ∀ f ∈ fields, WellMarked f.attributes) :
    select fields = .ok (fields.filter Field.hasMark) :=
  calc select fields = select (fields ++ []) := by rw [List.append_nil]
    _ = .ok (fields.filter Field.hasMark ++ []) := select_append h []
    _ = .ok (fields.filter Field.hasMark) := by rw [List.append_nil]

theorem select_of_firstFault {fields : List Field} {e : DeriveError} (h : FirstFault fields e) :
    select fields = .error e := by
  obtain ⟨before, f, after, rfl, hbefore, hf⟩ := h
  rw [select_append hbefore, select, Field.marked_of_firstOffence hf]
  rfl

theorem exists_firstFault {fields : List Field} (h : ¬ ∀ f ∈ fields, WellMarked f.attributes) :
    ∃ e, FirstFault fields e := by
  induction fields with
  | nil => exact absurd nofun h
  | cons f fields ih =>
    by_cases hf : WellMarked f.attributes
    · have hrest : ¬ ∀ g ∈ fields, WellMarked g.attributes := fun hrest =>
        h (List.forall_mem_cons.2 ⟨hf, hrest⟩)
      obtain ⟨e, before, g, after, rfl, hbefore, hg⟩ := ih hrest
      exact ⟨e, f :: before, g, after, rfl, List.forall_mem_cons.2 ⟨hf, hbefore⟩, hg⟩
    · obtain ⟨e, hoffence⟩ := exists_firstOffence hf
      exact ⟨e, [], f, fields, rfl, nofun, hoffence⟩

theorem select_eq_error {fields : List Field} {e : DeriveError} :
    select fields = .error e ↔ FirstFault fields e := by
  refine ⟨fun h => ?_, select_of_firstFault⟩
  by_cases hmarks : ∀ f ∈ fields, WellMarked f.attributes
  · rw [select_of_wellMarked hmarks] at h
    cases h
  · obtain ⟨e', hfault⟩ := exists_firstFault hmarks
    rw [select_of_firstFault hfault] at h
    cases h
    exact hfault

theorem select_eq_ok_iff {fields wire : List Field} :
    select fields = .ok wire ↔
      (∀ f ∈ fields, WellMarked f.attributes) ∧ wire = fields.filter Field.hasMark := by
  by_cases hmarks : ∀ f ∈ fields, WellMarked f.attributes
  · rw [select_of_wellMarked hmarks, Except.ok.injEq, and_iff_right hmarks, eq_comm]
  · obtain ⟨e, hfault⟩ := exists_firstFault hmarks
    rw [select_of_firstFault hfault]
    exact ⟨nofun, fun h => absurd h.1 hmarks⟩

/-! ## Attributes that do not matter -/

def Field.marksOnly (f : Field) : Field :=
  { f with attributes := f.attributes.filter Attribute.isMark }

def Slot.marksOnly (s : Slot) : Slot :=
  { s with attributes := s.attributes.filter Attribute.isMark }

def Fields.marksOnly : Fields → Fields
  | named fields => .named (fields.map fun (name, s) => (name, s.marksOnly))
  | tuple fields => .tuple (fields.map Slot.marksOnly)
  | unit => .unit

/-- An item without the attributes that have another path than the marker. -/
def Item.marksOnly (item : Item) : Item := { item with fields := item.fields.marksOnly }

theorem Fields.toList_marksOnly (fields : Fields) :
    fields.marksOnly.toList = fields.toList.map Field.marksOnly := by
  cases fields with
  | named fields => simp [Fields.marksOnly, Fields.toList, Field.marksOnly, Slot.marksOnly]
  | tuple fields =>
    simp [Fields.marksOnly, Fields.toList, Field.marksOnly, Slot.marksOnly, List.zipIdx_map]
  | unit => rfl

theorem markedAfter_filter (before : Bool) (as : List Attribute) :
    markedAfter before (as.filter Attribute.isMark) = markedAfter before as := by
  induction as generalizing before with
  | nil => rfl
  | cons a as ih =>
    rw [List.filter_cons]
    cases hmark : a.isMark with
    | false =>
      conv_rhs => rw [markedAfter, if_pos (of_decide_eq_false hmark)]
      exact ih before
    | true =>
      rw [if_pos rfl, markedAfter, markedAfter, ih before, ih true]

theorem select_map_marksOnly (fields : List Field) :
    select (fields.map Field.marksOnly) = List.map Field.marksOnly <$> select fields := by
  induction fields with
  | nil => rfl
  | cons f fields ih =>
    have hf : f.marksOnly.marked = f.marked := markedAfter_filter false f.attributes
    rw [List.map_cons, select, select, hf, ih]
    cases f.marked with
    | error e => rfl
    | ok marked =>
      cases select fields with
      | error e => rfl
      | ok wire => cases marked <;> rfl

theorem sourceOf_eq (wire : List Field) (label : Label) : sourceOf wire label =
    ((wire.find? (·.label == label)).map fun f => .bound f.label.binding).getD .default := by
  unfold sourceOf
  cases wire.find? (·.label == label) <;> rfl

theorem sourceOf_map_marksOnly (wire : List Field) (label : Label) :
    sourceOf (wire.map Field.marksOnly) label = sourceOf wire label := by
  rw [sourceOf_eq, sourceOf_eq, List.find?_map, Option.map_map]
  rfl

theorem construct_marksOnly (wire : List Field) (fields : Fields) :
    construct (wire.map Field.marksOnly) fields.marksOnly = construct wire fields := by
  cases fields with
  | named fields => simp [Fields.marksOnly, construct, sourceOf_map_marksOnly]
  | tuple fields => simp [Fields.marksOnly, construct, sourceOf_map_marksOnly, List.zipIdx_map]
  | unit => rfl

/-! ## Expansions -/

/-- The expansion of an item of which `wire` travels. -/
def Item.transfer (item : Item) (wire : List Field) : Expansion where
  name := item.name
  params := item.params
  conditions := item.conditions
  decodes := wire.map fun f => (f.label.binding, f.ty)
  construction := construct wire item.fields
  encodes := wire.map Field.label
  descriptors := wire.zipIdx.map fun (f, position) => ⟨f.label.text, position, f.ty⟩

theorem expand_of_struct {item : Item} (h : item.kind = .struct) :
    expand item = item.transfer <$> select item.fields.toList := by
  unfold expand
  rw [h]
  rfl

theorem expand_of_ne_struct {item : Item} (h : item.kind ≠ .struct) :
    expand item = .error .notStruct := by
  unfold expand
  cases hkind : item.kind with
  | struct => exact absurd hkind h
  | enum => rfl
  | union => rfl

theorem Item.transfer_marksOnly (item : Item) (wire : List Field) :
    item.marksOnly.transfer (wire.map Field.marksOnly) = item.transfer wire := by
  unfold Item.transfer
  rw [Item.marksOnly, construct_marksOnly]
  simp [Field.marksOnly, List.zipIdx_map]

theorem expand_marksOnly (item : Item) : expand item.marksOnly = expand item := by
  by_cases h : item.kind = .struct
  · have h' : item.marksOnly.kind = .struct := h
    have hselect : select item.marksOnly.fields.toList =
        List.map Field.marksOnly <$> select item.fields.toList := by
      rw [← select_map_marksOnly, ← Fields.toList_marksOnly]
      rfl
    rw [expand_of_struct h, expand_of_struct h', hselect]
    cases select item.fields.toList with
    | error e => rfl
    | ok wire => exact congrArg Except.ok (item.transfer_marksOnly wire)
  · have h' : item.marksOnly.kind ≠ .struct := h
    rw [expand_of_ne_struct h, expand_of_ne_struct h']

theorem expand_eq_error {item : Item} {e : DeriveError} (h : item.kind = .struct) :
    expand item = .error e ↔ FirstFault item.fields.toList e := by
  rw [expand_of_struct h, ← select_eq_error]
  cases select item.fields.toList with
  | error e' =>
    show Except.error e' = Except.error e ↔ _
    rw [Except.error.injEq, Except.error.injEq]
  | ok wire => exact ⟨nofun, nofun⟩

theorem expand_eq_ok_iff {item : Item} {x : Expansion} :
    expand item = .ok x ↔ item.kind = .struct ∧
      (∀ f ∈ item.fields.toList, WellMarked f.attributes) ∧
      x = item.transfer (item.fields.toList.filter Field.hasMark) := by
  by_cases h : item.kind = .struct
  · rw [expand_of_struct h, and_iff_right h]
    constructor
    · intro hx
      cases hselect : select item.fields.toList with
      | error e =>
        rw [hselect] at hx
        cases hx
      | ok wire =>
        rw [hselect] at hx
        cases hx
        obtain ⟨hmarks, rfl⟩ := select_eq_ok_iff.1 hselect
        exact ⟨hmarks, rfl⟩
    · rintro ⟨hmarks, rfl⟩
      rw [select_of_wellMarked hmarks]
      rfl
  · rw [expand_of_ne_struct h]
    exact ⟨nofun, fun h' => absurd h'.1 h⟩

theorem exists_expand_eq_error {item : Item} :
    (∃ e, expand item = .error e) ↔
      item.kind ≠ .struct ∨ ∃ f ∈ item.fields.toList, ¬ WellMarked f.attributes := by
  cases hexpand : expand item with
  | error e =>
    refine iff_of_true ⟨e, rfl⟩ ?_
    by_contra hnone
    obtain ⟨hkind, hmarks⟩ := not_or.1 hnone
    have hok := expand_eq_ok_iff.2 ⟨not_not.1 hkind, fun f hf => by
      by_contra hfault
      exact hmarks ⟨f, hf, hfault⟩, rfl⟩
    rw [hexpand] at hok
    cases hok
  | ok x =>
    obtain ⟨hstruct, hmarks, -⟩ := expand_eq_ok_iff.1 hexpand
    refine iff_of_false nofun ?_
    rintro (hkind | ⟨f, hf, hfault⟩)
    · exact hkind hstruct
    · exact hfault (hmarks f hf)

/-- Whether an item is put together in the form in which its fields are declared. -/
def Construction.HasForm : Construction → Fields → Prop
  | .named _, .named _ | .tuple _, .tuple _ | .unit, .unit => True
  | _, _ => False

/-- What an expansion does with the marked ones among the fields of an item, and with the others. A
field keeps its own name, which is its index among all if it has none, whatever its position among
the marked ones. -/
structure Expansion.Transfers (x : Expansion) (fields : Fields) : Prop where
  encodes : x.encodes = (fields.toList.filter Field.hasMark).map Field.label
  decodes : x.decodes =
    (fields.toList.filter Field.hasMark).map fun f => (f.label.binding, f.ty)
  descriptors : ∀ i, x.descriptors[i]? =
    (fields.toList.filter Field.hasMark)[i]?.map fun f => Descriptor.mk f.label.text i f.ty
  bindings : (x.decodes.map Prod.fst).Nodup
  form : x.construction.HasForm fields
  sources : x.construction.entries = fields.toList.map fun f =>
    (f.label, if f.hasMark then .bound f.label.binding else .default)

theorem wireOf_map (fields : List Field) (marked : Field → Bool) :
    wireOf (fields.map fun f => (f, marked f)) = fields.filter marked := by
  induction fields with
  | nil => rfl
  | cons f fields ih =>
    rw [List.map_cons, List.filter_cons]
    cases marked f with
    | false => exact ih
    | true => exact congrArg (f :: ·) ih

theorem sourceOf_filter {fields : List Field}
    (hnodup : (fields.map fun f => f.label.binding).Nodup) {f : Field} (hf : f ∈ fields) :
    sourceOf (fields.filter Field.hasMark) f.label =
      if f.hasMark then .bound f.label.binding else .default := by
  have hbindings :
      ((fields.map fun f => (f, f.hasMark)).map fun c => c.1.label.binding).Nodup := by
    rw [List.map_map]
    exact hnodup
  rw [← wireOf_map]
  exact sourceOf_of_mem (nodup_labels hbindings) (List.mem_map.2 ⟨f, hf, rfl⟩)

theorem transfers_transfer {item : Item} (h : item.fields.Distinct) :
    (item.transfer (item.fields.toList.filter Field.hasMark)).Transfers item.fields := by
  have hbindings : (item.fields.toList.map fun f => f.label.binding).Nodup := nodup_bindings h
  constructor
  case encodes => rfl
  case decodes => rfl
  case descriptors =>
    intro i
    show (List.map _ (List.zipIdx _))[i]? = _
    rw [List.getElem?_map, List.getElem?_zipIdx, Nat.zero_add]
    cases (item.fields.toList.filter Field.hasMark)[i]? <;> rfl
  case bindings =>
    show (List.map Prod.fst (List.map _ _)).Nodup
    rw [List.map_map]
    exact hbindings.sublist (List.filter_sublist.map _)
  case form =>
    show (construct _ item.fields).HasForm item.fields
    cases item.fields <;> trivial
  case sources =>
    show (construct _ item.fields).entries = _
    rw [entries_construct]
    exact List.map_congr_left fun f hf => by rw [sourceOf_filter hbindings hf]

/-- The selection of fields is exact. What is no struct has no expansion, whatever its attributes. A
struct has one unless a field has a mark that is not bare, or two marks; the error is that of the
first attribute at fault in the first field at fault. Attributes with another path leave no trace.
An expansion encodes, decodes and describes the marked fields alone, in the order of the item, and
sets each of them to its own variable and all others to their defaults. -/
theorem expand_exact (item : Item) :
    ((∃ e, expand item = .error e) ↔
      item.kind ≠ .struct ∨ ∃ f ∈ item.fields.toList,
        (∃ a ∈ f.attributes, a.isMark ∧ ¬ a.bare) ∨ 2 ≤ f.attributes.countP Attribute.isMark) ∧
    (item.kind ≠ .struct → expand item = .error .notStruct) ∧
    (item.kind = .struct → ∀ e, expand item = .error e ↔ FirstFault item.fields.toList e) ∧
    expand item.marksOnly = expand item ∧
    ∀ x, expand item = .ok x → item.fields.Distinct → x.Transfers item.fields := by
  refine ⟨?_, expand_of_ne_struct, fun h e => expand_eq_error h, expand_marksOnly item, ?_⟩
  · simp only [exists_expand_eq_error, not_wellMarked_iff]
  · intro x hx hdistinct
    obtain ⟨-, -, rfl⟩ := expand_eq_ok_iff.1 hx
    exact transfers_transfer hdistinct

/-- Two marked fields of a tuple among unmarked ones keep their indices, 1 and 3, as their names,
and are described at 0 and 1. A second mark with arguments is not bare; the repetition in the field
behind it is never looked at, and none of the fields if they are those of a union. -/
theorem expand_exact_interleaved_fields :
    let mark : Attribute := ⟨"streamable", true⟩
    let args : Attribute := ⟨"streamable", false⟩
    let doc : Attribute := ⟨"doc", false⟩
    let quad : Item := ⟨.struct, "Quad", [], [], .tuple
      [⟨"u8", [doc]⟩, ⟨"u16", [doc, mark]⟩, ⟨"u8", []⟩, ⟨"u32", [mark, doc, doc]⟩]⟩
    let faulty : Fields := .named
      [("id", ⟨"u8", [mark]⟩), ("r#type", ⟨"u8", [mark, doc, args]⟩), ("at", ⟨"u8", [mark, mark]⟩)]
    (∃ x, expand quad = .ok x ∧ x.Transfers quad.fields ∧
      x.encodes = [.index 1, .index 3] ∧
      x.descriptors = [⟨"1", 0, "u16"⟩, ⟨"3", 1, "u32"⟩] ∧
      x.construction = .tuple [.default, .bound "__field_1", .default, .bound "__field_3"]) ∧
    (FirstFault faulty.toList .notBare ∧
      expand ⟨.struct, "Faulty", [], [], faulty⟩ = .error .notBare) ∧
    expand ⟨.union, "Faulty", [], [], faulty⟩ = .error .notStruct := by
  intro mark args doc quad faulty
  obtain ⟨-, -, -, -, hquad⟩ := expand_exact quad
  obtain ⟨-, -, hfault, -⟩ := expand_exact ⟨.struct, "Faulty", [], [], faulty⟩
  obtain ⟨-, hunion, -⟩ := expand_exact ⟨.union, "Faulty", [], [], faulty⟩
  refine ⟨⟨_, rfl, hquad _ rfl trivial, rfl, rfl, rfl⟩, ⟨(hfault rfl _).1 rfl, rfl⟩, hunion nofun⟩

end PeerWire.Derive
