import Mathlib.Data.List.Nodup
import PeerWire.Derive.Meaning
import PeerWire.Proofs.Reading

/-!
# Derived codecs

The code that is derived from an item is the codec of the declaration that the item amounts to
(`Derived.decode_eq`, `Derived.encode_eq`), whatever the types of its fields mean. The variables of
distinct fields are distinct, so what a field is decoded to is what the field is set to, and an
unmarked field, which has no variable, is set to its default.
-/

namespace PeerWire.Derive

/-! ## The fields that travel -/

def wireOf : List (Field × Bool) → List Field
  | [] => []
  | (f, true) :: choices => f :: wireOf choices
  | (_, false) :: choices => wireOf choices

theorem mem_wireOf {choices : List (Field × Bool)} {f : Field} :
    f ∈ wireOf choices ↔ (f, true) ∈ choices := by
  induction choices with
  | nil => simp [wireOf]
  | cons c choices ih =>
    obtain ⟨f', _ | _⟩ := c
    · simp [wireOf, ih]
    · simp [wireOf, ih]

theorem select_eq_ok {fields wire : List Field} (h : select fields = .ok wire) :
    wire = wireOf (fields.map fun f => (f, f.travels)) := by
  induction fields generalizing wire with
  | nil =>
    cases h
    rfl
  | cons f fields ih =>
    rw [select] at h
    cases hmarked : f.marked with
    | error e =>
      rw [hmarked] at h
      cases h
    | ok marked =>
      cases hrest : select fields with
      | error e =>
        rw [hmarked, hrest] at h
        cases h
      | ok rest =>
        rw [hmarked, hrest] at h
        have htravels : f.travels = marked := by rw [Field.travels, hmarked]
        obtain rfl := ih hrest
        rw [List.map_cons, htravels]
        cases marked <;> cases h <;> rfl

theorem expand_eq_ok {item : Item} {x : Expansion} (h : expand item = .ok x) :
    x.decodes = (wireOf item.choices).map (fun f => (f.label.binding, f.ty)) ∧
    x.construction = construct (wireOf item.choices) item.fields ∧
    x.encodes = (wireOf item.choices).map Field.label := by
  unfold expand at h
  cases hkind : item.kind with
  | enum =>
    rw [hkind] at h
    cases h
  | union =>
    rw [hkind] at h
    cases h
  | struct =>
    cases hselect : select item.fields.toList with
    | error e =>
      rw [hkind, hselect] at h
      cases h
    | ok wire =>
      rw [hkind, hselect] at h
      cases h
      obtain rfl := select_eq_ok hselect
      exact ⟨rfl, rfl, rfl⟩

/-! ## Names and variables -/

theorem nodup_bindings {fields : Fields} (h : fields.Distinct) :
    (fields.toList.map fun f => f.label.binding).Nodup := by
  cases fields with
  | named fields =>
    have hnames : (Fields.named fields).toList.map (fun f => f.label.binding) =
        (fields.map fun field => Label.bareName field.1).map ("__field_" ++ ·) := by
      simp [Fields.toList, Label.binding]
    rw [hnames]
    exact List.Nodup.map (fun _ _ => (String.append_right_inj _).1) h
  | tuple fields =>
    have hindices : (Fields.tuple fields).toList.map (fun f => f.label.binding) =
        (fields.zipIdx.map Prod.snd).map fun i => "__field_" ++ toString i := by
      rw [Fields.toList, List.map_map, List.map_map]
      rfl
    rw [hindices, List.zipIdx_map_snd]
    refine List.Nodup.map (fun i j hij => ?_) List.nodup_range'
    have hrepr : i.repr = j.repr := (String.append_right_inj _).1 hij
    rw [← @Nat.ofDigitChars_ten_toDigits i, ← @Nat.ofDigitChars_ten_toDigits j,
      ← Nat.toList_repr, ← Nat.toList_repr, hrepr]
  | unit => exact List.nodup_nil

theorem Derived.nodup_bindings (d : Derived) :
    (d.item.choices.map fun c => c.1.label.binding).Nodup := by
  rw [Item.choices, List.map_map]
  exact Derive.nodup_bindings d.distinct

theorem nodup_labels {variableOf : Label → String} {choices : List (Field × Bool)}
    (h : (choices.map fun c => variableOf c.1.label).Nodup) :
    (choices.map fun c => c.1.label).Nodup := by
  have hmap : choices.map (fun c => variableOf c.1.label) =
      (choices.map fun c => c.1.label).map variableOf := by
    rw [List.map_map]
    rfl
  rw [hmap] at h
  exact h.of_map

theorem lookup_of_mem {α β : Type} [BEq α] [LawfulBEq α] {entries : List (α × β)}
    (hnodup : (entries.map Prod.fst).Nodup) {a : α} {b : β} (h : (a, b) ∈ entries) :
    entries.lookup a = some b := by
  induction entries with
  | nil => cases h
  | cons entry entries ih =>
    obtain ⟨hfresh, hnodup⟩ := List.nodup_cons.1 hnodup
    rcases List.mem_cons.1 h with rfl | h
    · rw [List.lookup_cons_self]
    · have hne : (a == entry.1) = false := by
        rw [beq_eq_false_iff_ne]
        rintro rfl
        exact hfresh (List.mem_map.2 ⟨_, h, rfl⟩)
      rw [List.lookup_cons, hne]
      exact ih hnodup h

/-! ## Constructions -/

theorem entries_construct (wire : List Field) (fields : Fields) :
    (construct wire fields).entries =
      fields.toList.map fun f => (f.label, sourceOf wire f.label) := by
  cases fields with
  | named fields => simp [construct, Construction.entries, Fields.toList]
  | tuple fields =>
    apply List.ext_getElem?
    intro i
    rw [construct, Construction.entries, Fields.toList, List.getElem?_map, List.getElem?_zipIdx,
      List.getElem?_map, List.getElem?_map, List.getElem?_map, List.getElem?_zipIdx]
    cases fields[i]? <;> rfl
  | unit => rfl

theorem sourceOf_of_mem {choices : List (Field × Bool)}
    (hnodup : (choices.map fun c => c.1.label).Nodup) {f : Field} {marked : Bool}
    (h : (f, marked) ∈ choices) :
    sourceOf (wireOf choices) f.label = if marked then .bound f.label.binding else .default := by
  unfold sourceOf
  cases hfind : (wireOf choices).find? (·.label == f.label) with
  | none =>
    cases marked with
    | false => rfl
    | true =>
      have hnone := List.find?_eq_none.1 hfind f (mem_wireOf.2 h)
      simp at hnone
  | some f' =>
    have hlabel : f'.label = f.label := by
      have hfound := List.find?_some hfind
      exact eq_of_beq hfound
    have hmem : (f', true) ∈ choices := mem_wireOf.1 (List.mem_of_find?_eq_some hfind)
    cases List.inj_on_of_nodup_map hnodup hmem h hlabel
    rfl

/-! ## Decoding -/

variable {types : String → Ty}

variable {variableOf : Label → String}

/-- The scope with a variable for each field that travels. -/
def extend (variableOf : Label → String) : (choices : List (Field × Bool)) →
    MarkedRow (choices.map (member types)) → Scope types → Scope types
  | [], _, scope => scope
  | (f, true) :: choices, (v, row), scope =>
    extend variableOf choices row (scope.declare (variableOf f.label) v)
  | (_, false) :: choices, row, scope => extend variableOf choices row scope

theorem extend_of_not_mem {variableName : String} : (choices : List (Field × Bool)) →
    (row : MarkedRow (choices.map (member types))) → (scope : Scope types) →
    variableName ∉ choices.map (fun c => variableOf c.1.label) →
    extend variableOf choices row scope variableName = scope variableName
  | [], _, _, _ => rfl
  | (f, true) :: choices, (v, row), scope, h => by
    have hne : variableName ≠ variableOf f.label := List.ne_of_not_mem_cons h
    rw [extend, extend_of_not_mem choices row _ (List.not_mem_of_not_mem_cons h)]
    exact if_neg hne
  | (f, false) :: choices, row, scope, h =>
    extend_of_not_mem choices row scope (List.not_mem_of_not_mem_cons h)

theorem bindAll_wireOf [Defaults] : (choices : List (Field × Bool)) → (scope : Scope types) →
    bindAll types ((wireOf choices).map fun f => (variableOf f.label, f.ty)) scope =
      (extend variableOf choices · scope) <$> MarkedRow.decode (choices.map (member types))
  | [], scope => rfl
  | (f, true) :: choices, scope => by
    have ih := bindAll_wireOf choices
    calc (do
          let v ← (types f.ty).decode
          bindAll types ((wireOf choices).map fun f => (variableOf f.label, f.ty))
            (scope.declare (variableOf f.label) v))
        = (do
          let v ← (types f.ty).decode
          (extend variableOf choices · (scope.declare (variableOf f.label) v)) <$>
            MarkedRow.decode (choices.map (member types))) := by simp only [ih]
      _ = (extend variableOf ((f, true) :: choices) · scope) <$> (do
          return (← (types f.ty).decode, ← MarkedRow.decode (choices.map (member types)))) := by
        simp [extend]
  | (f, false) :: choices, scope => bindAll_wireOf choices scope

theorem assemble_extend [Defaults] {entries : List (Label × Source)} :
    (choices : List (Field × Bool)) →
    (row : MarkedRow (choices.map (member types))) → (scope : Scope types) →
    (choices.map fun c => variableOf c.1.label).Nodup →
    (∀ c ∈ choices, entries.lookup c.1.label =
      some (if c.2 then .bound (variableOf c.1.label) else .default)) →
    assemble (extend variableOf choices row scope) entries choices =
      some (MarkedRow.complete _ row)
  | [], _, _, _, _ => rfl
  | (f, true) :: choices, (v, row), scope, hnodup, hentries => by
    obtain ⟨hfresh, hnodup⟩ := List.nodup_cons.1 hnodup
    have hsource := hentries (f, true) List.mem_cons_self
    have hrest := assemble_extend choices row (scope.declare (variableOf f.label) v) hnodup
      fun c hc => hentries c (List.mem_cons_of_mem _ hc)
    -- No later variable hides the one of `f`.
    have hvalue : Source.value? (extend variableOf choices row
        (scope.declare (variableOf f.label) v)) f.ty (.bound (variableOf f.label)) = some v := by
      rw [Source.value?, extend_of_not_mem choices row _ hfresh]
      simp [Scope.declare]
    rw [extend, assemble, hsource, hrest]
    show (do return (← Source.value? _ f.ty (.bound (variableOf f.label)), _)) = _
    rw [hvalue]
    rfl
  | (f, false) :: choices, row, scope, hnodup, hentries => by
    obtain ⟨-, hnodup⟩ := List.nodup_cons.1 hnodup
    have hsource := hentries (f, false) List.mem_cons_self
    have hrest := assemble_extend choices row scope hnodup
      fun c hc => hentries c (List.mem_cons_of_mem _ hc)
    rw [extend, assemble, hsource, hrest]
    rfl

/-- A construction sets each field of the item, the marked ones to their variables. -/
theorem build?_construct [Defaults] {item : Item}
    (hnodup : (item.choices.map fun c => c.1.label.binding).Nodup) (scope : Scope types)
    (row : MarkedRow (item.choices.map (member types))) :
    (construct (wireOf item.choices) item.fields).build?
      (extend Label.binding item.choices row scope) item.choices =
        some (MarkedRow.complete _ row) := by
  have hentries : (construct (wireOf item.choices) item.fields).entries =
      item.choices.map fun c => (c.1.label, sourceOf (wireOf item.choices) c.1.label) := by
    rw [entries_construct, Item.choices, List.map_map]
    rfl
  have hkeys : ((construct (wireOf item.choices) item.fields).entries.map Prod.fst).Nodup := by
    rw [hentries, List.map_map]
    exact nodup_labels hnodup
  unfold Construction.build?
  rw [if_pos (by rw [hentries, List.length_map])]
  refine assemble_extend item.choices row scope hnodup fun c hc => ?_
  rw [← sourceOf_of_mem (nodup_labels hnodup) hc]
  apply lookup_of_mem hkeys
  rw [hentries]
  exact List.mem_map_of_mem hc

theorem Derived.decode_eq [Defaults] (types : String → Ty) (d : Derived) :
    d.decode types = some <$> (d.item.decl types).ty.decode := by
  obtain ⟨hdecodes, hconstruction, -⟩ := expand_eq_ok d.expand_eq
  have hbuild (row : MarkedRow (d.item.choices.map (member types))) :
      d.expansion.construction.build? (extend Label.binding d.item.choices row fun _ => none)
        d.item.choices = some (MarkedRow.complete _ row) := by
    rw [hconstruction]
    exact build?_construct d.nodup_bindings _ row
  rw [Derived.decode, hdecodes, bindAll_wireOf, Ty.decode]
  simp [hbuild]

/-! ## Encoding -/

theorem emissions_fst : (choices : List (Field × Bool)) → (row : RowOf types choices) →
    (emissions types choices row).map Prod.fst = choices.map fun c => c.1.label
  | [], _ => rfl
  | (_, _) :: choices, (_, row) => congrArg (_ :: ·) (emissions_fst choices row)

theorem concat_mapM_wireOf {written : Label → Option Emission} :
    (choices : List (Field × Bool)) → (row : RowOf types choices) →
    (∀ p ∈ emissions types choices row, written p.1 = some p.2) →
    Emission.concat <$> ((wireOf choices).map Field.label).mapM written =
      some (Row.encodeMarked _ row)
  | [], _, _ => rfl
  | (f, true) :: choices, (v, row), h => by
    have hfirst := h _ List.mem_cons_self
    have hrest := concat_mapM_wireOf choices row fun p hp => h p (List.mem_cons_of_mem _ hp)
    obtain ⟨as, has, hconcat⟩ := Option.map_eq_some_iff.1 hrest
    rw [wireOf, List.map_cons, List.mapM_cons, hfirst, has]
    exact congrArg (fun a => some ((types f.ty).encode v ++ a)) hconcat
  | (f, false) :: choices, (_, row), h =>
    concat_mapM_wireOf choices row fun p hp => h p (List.mem_cons_of_mem _ hp)

theorem Derived.encode_eq (types : String → Ty) (d : Derived)
    (row : (d.item.decl types).Val) :
    d.encode types row = some ((d.item.decl types).ty.encode row) := by
  obtain ⟨-, -, hencodes⟩ := expand_eq_ok d.expand_eq
  have hkeys : ((emissions types d.item.choices row).map Prod.fst).Nodup := by
    rw [emissions_fst]
    exact nodup_labels d.nodup_bindings
  rw [Derived.encode, hencodes, Ty.encode]
  exact concat_mapM_wireOf d.item.choices row fun p hp => lookup_of_mem hkeys hp

/-! ## Records -/

theorem Derived.marshal_eq (types : String → Ty) (d : Derived) (row : (d.item.decl types).Val) :
    d.marshal types row = some ((d.item.decl types).marshal row) := by
  rw [Derived.marshal, d.encode_eq]
  rfl

theorem Derived.unmarshal_eq_ok [Defaults] {types : String → Ty} {d : Derived} {buffer rest : Bytes}
    {row : (d.item.decl types).Val} {es : List Event} :
    d.unmarshal types buffer = ⟨.ok (some row, rest), es⟩ ↔
      (d.item.decl types).ty.decode buffer = ⟨.ok row, rest, es⟩ := by
  rw [Derived.unmarshal, d.decode_eq, Reader.front_some_eq_ok]

end PeerWire.Derive
