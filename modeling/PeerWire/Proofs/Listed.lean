import PeerWire.Derive.Generated
import PeerWire.Proofs.Images
import PeerWire.Proofs.Selection

/-!
# Listed codecs

The code of a listing is the codec of the declaration that the listing amounts to, as derived code
is that of its item. A listing puts all its members on the wire, so its declaration does what a
selection does with all members marked.
-/

namespace PeerWire

/-! ## Members that are all marked -/

theorem Row.decode_of_allMarked [Defaults] : (ms : List (Member Ty)) → (∀ m ∈ ms, m.marked = true) →
    Row.decode ms = MarkedRow.complete ms <$> MarkedRow.decode ms
  | [], _ => rfl
  | ⟨_, t, true⟩ :: ms, h => by
    have ih := Row.decode_of_allMarked ms fun m hm => h m (List.mem_cons_of_mem _ hm)
    simp [Row.decode, MarkedRow.decode, MarkedRow.complete, ih]
  | ⟨_, _, false⟩ :: _, h => nomatch h _ List.mem_cons_self

theorem Row.encode_of_allMarked : (ms : List (Member Ty)) → (∀ m ∈ ms, m.marked = true) →
    (row : Row ms) → Row.encode ms row = Row.encodeMarked ms row
  | [], _, _ => rfl
  | ⟨_, t, true⟩ :: ms, h, (v, row) => by
    have ih := Row.encode_of_allMarked ms (fun m hm => h m (List.mem_cons_of_mem _ hm)) row
    rw [Row.encode, Row.encodeMarked, ih]
  | ⟨_, _, false⟩ :: _, h, _ => nomatch h _ List.mem_cons_self

theorem Row.images_of_allMarked : (ms : List (Member Ty)) → (∀ m ∈ ms, m.marked = true) →
    (row : Row ms) → Row.images ms row = Row.markedImages ms row
  | [], _, _ => rfl
  | ⟨_, t, true⟩ :: ms, h, (v, row) => by
    have ih := Row.images_of_allMarked ms (fun m hm => h m (List.mem_cons_of_mem _ hm)) row
    rw [Row.images, Row.markedImages, ih]
  | ⟨_, _, false⟩ :: _, h, _ => nomatch h _ List.mem_cons_self

theorem listingFields_of_allMarked (position : Nat) : (ms : List (Member Ty)) →
    (∀ m ∈ ms, m.marked = true) →
    listingFields position ms = selectionFields position position ms
  | [], _ => rfl
  | ⟨_, t, true⟩ :: ms, h => by
    have ih := listingFields_of_allMarked (position + 1) ms
      fun m hm => h m (List.mem_cons_of_mem _ hm)
    rw [listingFields, selectionFields, ih]
  | ⟨_, _, false⟩ :: _, h => nomatch h _ List.mem_cons_self

namespace Derive

/-! ## Variables -/

variable {types : String → Ty} {variableOf : Label → String}

theorem extend_of_mem [Defaults] : (choices : List (Field × Bool)) →
    (row : MarkedRow (choices.map (member types))) → (scope : Scope types) →
    (choices.map fun c => variableOf c.1.label).Nodup →
    ∀ x ∈ travelling choices (MarkedRow.complete _ row),
      extend variableOf choices row scope (variableOf x.label) = some ⟨x.ty, x.value⟩
  | [], _, _, _, _, hx => nomatch hx
  | (f, true) :: choices, (v, row), scope, hnodup, x, hx => by
    obtain ⟨hfresh, hnodup⟩ := List.nodup_cons.1 hnodup
    rcases List.mem_cons.1 hx with rfl | hx
    · rw [extend, extend_of_not_mem choices row _ hfresh]
      exact if_pos rfl
    · exact extend_of_mem choices row _ hnodup x hx
  | (f, false) :: choices, row, scope, hnodup, x, hx =>
    extend_of_mem choices row scope (List.nodup_cons.1 hnodup).2 x hx

/-- Parameters with the names of the variables that are passed for them. -/
theorem pass_extend [Defaults] {scope : Scope types} : (choices : List (Field × Bool)) →
    (row : MarkedRow (choices.map (member types))) → (body : Scope types) →
    (∀ x ∈ travelling choices (MarkedRow.complete _ row),
      scope (variableOf x.label) = some ⟨x.ty, x.value⟩) →
    pass scope ((wireOf choices).map fun f => (variableOf f.label, f.ty))
      (((wireOf choices).map fun f => (variableOf f.label, f.ty)).map Prod.fst) body =
      some (extend variableOf choices row body)
  | [], _, _, _ => rfl
  | (f, true) :: choices, (v, row), body, h => by
    have hfirst : scope (variableOf f.label) = some ⟨f.ty, v⟩ := h _ List.mem_cons_self
    have hrest := pass_extend choices row (body.declare (variableOf f.label) v)
      fun x hx => h x (List.mem_cons_of_mem _ hx)
    have hvalue : (Source.bound (variableOf f.label)).value? scope f.ty = some v := by
      rw [Source.value?, hfirst]
      simp
    rw [wireOf, List.map_cons, List.map_cons, pass, hvalue]
    exact hrest
  | (_, false) :: choices, row, body, h => pass_extend choices row body h

/-! ## Listings -/

/-- What a field of a listing is called in the code. -/
def Label.parameter (label : Label) : String := bareName label.text

namespace Listing

theorem choices_marked (l : Listing) : ∀ c ∈ l.choices, c.2 = true := by
  unfold choices
  simp only [List.forall_mem_map, implies_true]

theorem members_marked (l : Listing) : ∀ m ∈ l.choices.map (member types), m.marked = true :=
  List.forall_mem_map.2 l.choices_marked

theorem wireOf_choices (l : Listing) :
    wireOf l.choices = l.fields.map fun (name, ty) => ⟨.name name, ty, []⟩ := by
  unfold choices
  induction l.fields with
  | nil => rfl
  | cons field fields ih => exact congrArg (_ :: ·) ih

theorem parameters_eq (l : Listing) :
    l.parameters = (wireOf l.choices).map fun f => (f.label.parameter, f.ty) := by
  rw [wireOf_choices, List.map_map]
  rfl

theorem nodup_parameters (l : Listing) :
    (l.choices.map fun c => c.1.label.parameter).Nodup := by
  rw [choices, List.map_map]
  exact l.distinct

theorem nodup_labels (l : Listing) : (l.choices.map fun c => c.1.label).Nodup :=
  Derive.nodup_labels l.nodup_parameters

theorem build?_construction [Defaults] (l : Listing)
    (row : MarkedRow (l.choices.map (member types))) :
    l.construction.build? (extend Label.parameter l.choices row fun _ => none) l.choices =
      some (MarkedRow.complete _ row) := by
  have hentries : l.construction.entries =
      l.choices.map fun c => (c.1.label, .bound c.1.label.parameter) := by
    rw [construction, Construction.entries, choices, List.map_map, List.map_map]
    rfl
  have hkeys : (l.construction.entries.map Prod.fst).Nodup := by
    rw [hentries, List.map_map]
    exact l.nodup_labels
  unfold Construction.build?
  rw [if_pos (by rw [hentries, List.length_map])]
  refine assemble_extend l.choices row _ l.nodup_parameters fun c hc => ?_
  rw [l.choices_marked c hc, if_pos rfl]
  apply lookup_of_mem hkeys
  rw [hentries]
  exact List.mem_map_of_mem hc

/-- What is bound goes through the parameters of the constructor into the fields. -/
theorem new?_extend [Defaults] (l : Listing) (row : MarkedRow (l.choices.map (member types))) :
    l.new? (extend Label.parameter l.choices row fun _ => none) (l.parameters.map Prod.fst) =
      some (MarkedRow.complete _ row) := by
  have hscope := extend_of_mem l.choices row (fun _ => none) l.nodup_parameters
  rw [new?, parameters_eq, pass_extend l.choices row _ hscope]
  exact l.build?_construction row

/-! ### The code -/

theorem decode_eq [Defaults] (types : String → Ty) (l : Listing) :
    l.decode types = some <$> (l.decl types).ty.decode := by
  have hlisting : (l.decl types).ty.decode = MarkedRow.complete _ <$>
      MarkedRow.decode (l.choices.map (member types)) :=
    Row.decode_of_allMarked _ l.members_marked
  rw [decode, hlisting, l.parameters_eq, bindAll_wireOf, ← l.parameters_eq]
  simp [l.new?_extend]

theorem encode_eq (types : String → Ty) (l : Listing) (row : (l.decl types).Val) :
    l.encode types row = some ((l.decl types).ty.encode row) := by
  have hlabels : (l.fields.map fun (name, _) => Label.name name) =
      (wireOf l.choices).map Field.label := by
    rw [wireOf_choices, List.map_map]
    rfl
  have hkeys : ((emissions types l.choices row).map Prod.fst).Nodup := by
    rw [emissions_fst]
    exact l.nodup_labels
  have hlisting : (l.decl types).ty.encode row = Row.encodeMarked _ row :=
    Row.encode_of_allMarked _ l.members_marked row
  rw [encode, hlabels, hlisting]
  exact concat_mapM_wireOf l.choices row fun p hp => lookup_of_mem hkeys hp

end Listing

end Derive

end PeerWire
