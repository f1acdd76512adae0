import Mathlib.Data.List.Forall2
import PeerWire.Proofs.ByteLists
import PeerWire.Proofs.Conformance

/-!
# Names and framing

What the wire does not show of a shape. The names of records, the names of fields and their
positions have no part in reading, and in writing only the error about a record of the wrong length
repeats the record's name (`Shape.nameless`). Neither is a record inside a record framed: where its
fields stand in its place (`Splice`), the same bytes are read and written, and its values stand
among those of the outer record. Main statement: `codec_blind_to_names_and_framing`.
-/

namespace PeerWire

/-! ## Names -/

/-- The error without the name of the record that it is about. -/
def WireError.nameless : WireError → WireError
  | .fieldCountMismatch _ expected found => .fieldCountMismatch "" expected found
  | e => e

namespace Shape

mutual
/-- The shape without the names of its records and without the names and positions of its fields,
at every depth. -/
def nameless : Shape → Shape
  | u8 => u8
  | u16 => u16
  | u32 => u32
  | u64 => u64
  | bool => bool
  | fixedBytes size => fixedBytes size
  | string => string
  | list element => list element.nameless
  | optional inner => optional inner.nameless
  | record _ fields => record "" (fieldsNameless fields)
def fieldsNameless : List Field → List Field
  | [] => []
  | ⟨_, _, s⟩ :: fields => ⟨"", 0, s.nameless⟩ :: fieldsNameless fields
end

theorem kind_nameless (s : Shape) : s.nameless.kind = s.kind := by
  cases s <;> rfl

theorem map_shape_fieldsNameless (fields : List Field) :
    (fieldsNameless fields).map FieldOf.shape = (fields.map FieldOf.shape).map nameless := by
  induction fields with
  | nil => rfl
  | cons f fields ih => exact congrArg (f.shape.nameless :: ·) ih

theorem length_fieldsNameless (fields : List Field) :
    (fieldsNameless fields).length = fields.length := by
  have h := congrArg List.length (map_shape_fieldsNameless fields)
  simpa using h

end Shape

/-- The shape that comes with the reader of the elements sets the room for them and no more. -/
theorem Reader.list_congr {α : Type} (s t : Shape) (element : Reader α) :
    list s element = list t element := by
  rw [list_eq, list_eq]
  congr 1
  funext count
  ext input
  rw [reserve_bind, reserve_bind]

mutual
theorem Shape.decode_nameless : (s : Shape) → s.nameless.decode = s.decode
  | .u8 | .u16 | .u32 | .u64 | .bool | .fixedBytes _ | .string => rfl
  | .list element => by
    rw [Shape.nameless, Shape.decode, Shape.decode, element.decode_nameless,
      Reader.list_congr element.nameless element]
  | .optional inner => by rw [Shape.nameless, Shape.decode, Shape.decode, inner.decode_nameless]
  | .record _ fields => by
    rw [Shape.nameless, Shape.decode, Shape.decode, Shape.decodeFields_nameless fields]
theorem Shape.decodeFields_nameless : (fields : List Field) →
    decodeFields (fieldsNameless fields) = decodeFields fields
  | [] => rfl
  | ⟨_, _, s⟩ :: fields => by
    rw [Shape.fieldsNameless, Shape.decodeFields, Shape.decodeFields, s.decode_nameless,
      Shape.decodeFields_nameless fields]
end

/-! ## Writing without names -/

def Node.nameless (n : Node) : Node := ⟨n.value, n.shape.nameless⟩

theorem Node.offence?_nameless (n : Node) :
    n.nameless.offence? = n.offence?.map WireError.nameless := by
  rcases n with ⟨v, k⟩
  by_cases hk : v.kind = k.kind
  · cases v <;> cases k <;> cases hk
    · rfl
    · rfl
    · rfl
    · rfl
    · rfl
    · rename_i bytes size
      by_cases h : bytes.length = size <;> simp [Node.nameless, Shape.nameless, offence?, h,
        WireError.nameless]
    · rename_i text
      by_cases h : (Utf8.encode text).length < BigEndian.capacity 4 <;>
        simp [Node.nameless, Shape.nameless, offence?, overflow?, h, WireError.nameless]
    · rename_i items element
      by_cases h : items.length < BigEndian.capacity 4 <;>
        simp [Node.nameless, Shape.nameless, offence?, overflow?, h, WireError.nameless]
    · rfl
    · rename_i values name fields
      by_cases h : values.length = fields.length <;>
        simp [Node.nameless, Shape.nameless, offence?, Shape.length_fieldsNameless, h,
          WireError.nameless]
  · have hk' : v.kind ≠ k.nameless.kind := by rwa [k.kind_nameless]
    rw [Node.nameless, offence?_of_kind_ne hk, offence?_of_kind_ne hk', k.kind_nameless]
    rfl

namespace Value

theorem nodes_nameless (v : Value) (k : Shape) :
    v.nodes k.nameless = (v.nodes k).map Node.nameless := by
  induction v, k using nodes.induct (motive_2 := fun vs ks =>
    nodesAll vs (ks.map Shape.nameless) = (nodesAll vs ks).map Node.nameless) with
  | case1 items element ih =>
    rw [List.map_replicate] at ih
    rw [Shape.nameless, nodes, nodes, List.map_cons, ih]
    rfl
  | case2 v inner ih =>
    rw [Shape.nameless, nodes, nodes, List.map_cons, ih]
    rfl
  | case3 values name fields ih =>
    rw [Shape.nameless, nodes, nodes, List.map_cons, Shape.map_shape_fieldsNameless, ih]
    rfl
  | case4 v k hlist hsome hrecord =>
    rw [nodes, nodes]
    · rfl
    · exact hlist
    · exact hsome
    · exact hrecord
    · intro items element hv hk
      cases k <;> cases hk
      exact hlist items _ hv rfl
    · intro w inner hv hk
      cases k <;> cases hk
      exact hsome w _ hv rfl
    · intro values name fields hv hk
      cases k <;> cases hk
      exact hrecord values _ _ hv rfl
  | case5 v vs k ks ihv ihvs =>
    rw [List.map_cons, nodesAll, nodesAll, List.map_append, ihv, ihvs]
  | case6 vs ks h =>
    rw [nodesAll, nodesAll]
    · rfl
    · exact h
    · intro v vs' k ks' hvs hks
      obtain ⟨k₀, ks₀, rfl, -, -⟩ := List.map_eq_cons_iff.1 hks
      exact h v vs' k₀ ks₀ hvs rfl

theorem encode_nameless (v : Value) (k : Shape) : v.encode k.nameless =
    ⟨(v.encode k).writes, (v.encode k).fault?.map WireError.nameless⟩ := by
  have hsound (n : Node) : (n.nameless.offence? = none) = (n.offence? = none) := by
    rw [n.offence?_nameless, Option.map_eq_none_iff]
  have hoffence : Node.offence? ∘ Node.nameless = Option.map WireError.nameless ∘ Node.offence? :=
    funext Node.offence?_nameless
  rw [encode_eq_first_offence, encode_eq_first_offence, nodes_nameless, List.takeWhile_map,
    List.flatMap_map, List.findSome?_map, hoffence, List.map_findSome?]
  simp only [Function.comp_def, hsound]
  rfl

end Value

namespace Emission

/-- The same is written, up to the same fault but for the name of a record. -/
def Alike (a b : Emission) : Prop :=
  a.writes = b.writes ∧ a.fault?.map WireError.nameless = b.fault?.map WireError.nameless

theorem deliverFrom_alike {σ : Type} (dest : Destination σ) {fault? fault'? : Option WireError}
    (h : fault?.map WireError.nameless = fault'?.map WireError.nameless) (ws : List Bytes) (s : σ) :
    (deliverFrom dest fault? ws s).2 = (deliverFrom dest fault'? ws s).2 ∧
    (deliverFrom dest fault? ws s).1.mapError WireError.nameless =
      (deliverFrom dest fault'? ws s).1.mapError WireError.nameless := by
  induction ws generalizing s with
  | nil =>
    cases fault? with
    | none =>
      obtain rfl := Option.map_eq_none_iff.1 h.symm
      exact ⟨rfl, rfl⟩
    | some e =>
      obtain ⟨e', rfl, he⟩ := Option.map_eq_some_iff.1 h.symm
      exact ⟨rfl, congrArg Except.error he.symm⟩
  | cons w ws ih =>
    rw [deliverFrom, deliverFrom]
    rcases dest s w with ⟨_ | _, s'⟩
    · exact ⟨rfl, rfl⟩
    · exact ih s'

theorem Alike.deliver {σ : Type} {a b : Emission} (h : a.Alike b) (dest : Destination σ) (s : σ) :
    (a.deliver dest s).2 = (b.deliver dest s).2 ∧
    (a.deliver dest s).1.mapError WireError.nameless =
      (b.deliver dest s).1.mapError WireError.nameless := by
  obtain ⟨hwrites, hfault⟩ := h
  unfold Emission.deliver
  rw [hwrites]
  exact deliverFrom_alike dest hfault b.writes s

end Emission

theorem Value.encode_alike {k₁ k₂ : Shape} (h : k₁.nameless = k₂.nameless) (v : Value) :
    (v.encode k₁).Alike (v.encode k₂) := by
  have hsame := v.encode_nameless k₁
  rw [h, v.encode_nameless k₂] at hsame
  obtain ⟨hwrites, hfault⟩ := Emission.mk.inj hsame
  exact ⟨hwrites.symm, hfault.symm⟩

/-! ## Framing -/

mutual
/-- A place in the first shape where a record is a field of another. In the second shape the fields
of the inner record stand there instead. -/
inductive Splice : Shape → Shape → Type where
  | list {s t : Shape} (p : Splice s t) : Splice (.list s) (.list t)
  | optional {s t : Shape} (p : Splice s t) : Splice (.optional s) (.optional t)
  | record {name : String} {fs gs : List Field} (p : SpliceFields fs gs) :
      Splice (.record name fs) (.record name gs)
inductive SpliceFields : List Field → List Field → Type where
  | here {name inner : String} {position : Nat} {fields after : List Field} :
      SpliceFields (⟨name, position, .record inner fields⟩ :: after) (fields ++ after)
  | inside {name : String} {position : Nat} {s t : Shape} {after : List Field} (p : Splice s t) :
      SpliceFields (⟨name, position, s⟩ :: after) (⟨name, position, t⟩ :: after)
  | behind {f : Field} {fs gs : List Field} (p : SpliceFields fs gs) :
      SpliceFields (f :: fs) (f :: gs)
end

/-- Puts the values of a record in front among the values behind it. -/
def Value.unframe : List Value → List Value
  | .record values :: after => values ++ after
  | vs => vs

mutual
/-- Puts the values of each record that stands at the place among those of the record around it. -/
def Splice.value {s t : Shape} : Splice s t → Value → Value
  | .list p, .list items => .list (items.map p.value)
  | .list _, v => v
  | .optional p, .optional v? => .optional (v?.map p.value)
  | .optional _, v => v
  | .record p, .record values => .record (p.values values)
  | .record _, v => v
def SpliceFields.values {fs gs : List Field} : SpliceFields fs gs → List Value → List Value
  | .here, vs => Value.unframe vs
  | .inside p, v :: after => p.value v :: after
  | .inside _, [] => []
  | .behind p, v :: after => v :: p.values after
  | .behind _, [] => []
end

/-! ### Reading -/

theorem Shape.decodeFields_append (fs gs : List Field) : decodeFields (fs ++ gs) =
    (do return (← decodeFields fs) ++ (← decodeFields gs)) := by
  induction fs with
  | nil => simp [decodeFields]
  | cons f fs ih => simp [decodeFields, ih]

mutual
theorem Splice.decode_eq {s t : Shape} : (p : Splice s t) → t.decode = p.value <$> s.decode
  | .list (s := s) (t := t) p => by
    have ih := p.decode_eq
    rw [Shape.decode, Shape.decode, ih, Reader.list_congr t s, Reader.list_map]
    simp [Splice.value]
  | .optional p => by
    have ih := p.decode_eq
    simp only [Shape.decode, ih, map_bind]
    congr 1
    funext b
    cases b <;> simp [Splice.value]
  | .record p => by
    have ih := p.decodeFields_eq
    simp [Shape.decode, Splice.value, ih]
theorem SpliceFields.decodeFields_eq {fs gs : List Field} : (p : SpliceFields fs gs) →
    Shape.decodeFields gs = p.values <$> Shape.decodeFields fs
  | .here => by
    simp [Shape.decodeFields_append, Shape.decodeFields, Shape.decode, SpliceFields.values,
      Value.unframe]
  | .inside p => by
    have ih := p.decode_eq
    simp [Shape.decodeFields, SpliceFields.values, ih]
  | .behind p => by
    have ih := p.decodeFields_eq
    simp [Shape.decodeFields, SpliceFields.values, ih]
end

/-! ### Writing -/

namespace Value

theorem fits_record_iff {name : String} {values : List Value} {fields : List Field} :
    (record values).Fits (.record name fields) ↔
      List.Forall₂ Fits values (fields.map FieldOf.shape) := by
  rw [List.forall₂_iff_zip, List.length_map]
  constructor
  · intro h
    cases h with
    | record hlen hvalues => exact ⟨hlen, fun hp => hvalues _ hp⟩
  · rintro ⟨hlen, hvalues⟩
    exact .record hlen fun _ hp => hvalues hp

theorem encode_record {values : List Value} {fields : List Field}
    (h : List.Forall₂ Fits values (fields.map FieldOf.shape)) (name : String) :
    (record values).encode (.record name fields) = encodeFields values fields := by
  have hlen := h.length_eq
  rw [List.length_map] at hlen
  rw [encode, if_pos hlen]

theorem encodeFields_append {vs : List Value} {fs : List Field}
    (h : List.Forall₂ Fits vs (fs.map FieldOf.shape)) (ws : List Value) (gs : List Field) :
    encodeFields (vs ++ ws) (fs ++ gs) = encodeFields vs fs ++ encodeFields ws gs := by
  induction fs generalizing vs with
  | nil =>
    cases h
    rfl
  | cons f fs ih =>
    cases h with
    | cons _ hvs =>
      rw [List.cons_append, List.cons_append, encodeFields, encodeFields, ih hvs,
        Emission.append_assoc]

end Value

/-- What stands at the place fits the second shape, and is written as before. -/
def Splice.Keeps {s t : Shape} (p : Splice s t) : Prop :=
  ∀ {v : Value}, v.Fits s → (p.value v).Fits t ∧ (p.value v).encode t = v.encode s

theorem Splice.Keeps.items {s t : Shape} {p : Splice s t} (hp : p.Keeps) {items : List Value}
    (h : ∀ v ∈ items, v.Fits s) :
    Value.encodeItems (items.map p.value) t = Value.encodeItems items s := by
  induction items with
  | nil => rfl
  | cons v vs ih =>
    obtain ⟨hv, hvs⟩ := List.forall_mem_cons.1 h
    rw [List.map_cons, Value.encodeItems, Value.encodeItems, (hp hv).2, ih hvs]

mutual
theorem Splice.keeps {s t : Shape} : (p : Splice s t) → p.Keeps
  | .list p, _, .list hlen hitems => by
    have ih : p.Keeps := p.keeps
    rw [Splice.value, Value.encode, Value.encode, ih.items hitems, List.length_map]
    refine ⟨.list (by rwa [List.length_map]) ?_, rfl⟩
    exact List.forall_mem_map.2 fun v hv => (ih (hitems v hv)).1
  | .optional _, _, .absent => ⟨.absent, rfl⟩
  | .optional p, _, .present hv => by
    obtain ⟨hfits, hencode⟩ := p.keeps hv
    exact ⟨.present hfits, congrArg (Emission.flag true ++ ·) hencode⟩
  | .record p, .record values, h => by
    have hvs := Value.fits_record_iff.1 h
    obtain ⟨hfits, hencode⟩ := p.keeps hvs
    rw [Splice.value, Value.encode_record hfits, Value.encode_record hvs]
    exact ⟨Value.fits_record_iff.2 hfits, hencode⟩
theorem SpliceFields.keeps {fs gs : List Field} : (p : SpliceFields fs gs) → {vs : List Value} →
    List.Forall₂ Value.Fits vs (fs.map FieldOf.shape) →
      List.Forall₂ Value.Fits (p.values vs) (gs.map FieldOf.shape) ∧
      Value.encodeFields (p.values vs) gs = Value.encodeFields vs fs
  | .here, .record values :: after, .cons hv hafter => by
    have hvalues := Value.fits_record_iff.1 hv
    rw [SpliceFields.values, Value.unframe, List.map_append, Value.encodeFields_append hvalues,
      Value.encodeFields, Value.encode_record hvalues]
    exact ⟨List.rel_append hvalues hafter, rfl⟩
  | .inside p, v :: after, .cons hv hafter => by
    obtain ⟨hfits, hencode⟩ := p.keeps hv
    rw [SpliceFields.values, Value.encodeFields, Value.encodeFields, hencode]
    exact ⟨.cons hfits hafter, rfl⟩
  | .behind p, v :: after, .cons hv hafter => by
    obtain ⟨hfits, hencode⟩ := p.keeps hafter
    rw [SpliceFields.values, Value.encodeFields, Value.encodeFields, hencode]
    exact ⟨.cons hv hfits, rfl⟩
end

/-! ## Both -/

/-- What is read and written under a shape does not depend on the names in it or on the positions of
its fields, whatever the bytes and the values, but for the name in the error about a record of the
wrong length. Nor does it depend on how fields are grouped: with the fields of an inner record in
its place, a cursor is read to the same place with the same report, only that the inner values stand
among the outer ones, and a value that fits is written in the same way. -/
theorem codec_blind_to_names_and_framing :
    (∀ k₁ k₂ : Shape, k₁.nameless = k₂.nameless →
      (∀ c : Cursor, c.run k₁.decode = c.run k₂.decode) ∧
      ∀ v : Value, (v.encode k₁).Alike (v.encode k₂) ∧
        ∀ {σ : Type} (dest : Destination σ) (s : σ),
          let first := (v.encode k₁).deliver dest.recording (s, [])
          let second := (v.encode k₂).deliver dest.recording (s, [])
          first.2 = second.2 ∧
          first.1.mapError WireError.nameless = second.1.mapError WireError.nameless) ∧
    ∀ (k k' : Shape) (p : Splice k k'),
      (∀ c : Cursor, c.run k'.decode = ((c.run k.decode).1.map p.value, (c.run k.decode).2)) ∧
      ∀ v : Value, v.Fits k → (p.value v).encode k' = v.encode k ∧
        ∃ e, (v.encode k).toExcept = .ok e ∧ ((p.value v).encode k').toExcept = .ok e := by
  refine ⟨fun k₁ k₂ h => ⟨fun c => ?_, fun v => ?_⟩, fun k k' p => ⟨fun c => ?_, fun v hv => ?_⟩⟩
  · rw [← k₁.decode_nameless, h, k₂.decode_nameless]
  · have halike := v.encode_alike h
    exact ⟨halike, fun dest s => halike.deliver dest.recording (s, [])⟩
  · rw [p.decode_eq, c.run_map]
  · obtain ⟨-, hencode⟩ := p.keeps hv
    have hok := Value.toExcept_encode_of_fits hv
    exact ⟨hencode, _, hok, by rw [hencode, hok]⟩

/-- The points of a walk under other names, in other positions, and without a frame. The second
buffer ends inside the second point. A point without its second number is at fault under either
name. -/
theorem codec_blind_to_names_and_framing_walk :
    let walk : Shape := .record "Walk" [⟨"steps", 0, .list (.record "Step"
      [⟨"at", 0, .record "Point" [⟨"x", 0, .u8⟩, ⟨"y", 1, .u8⟩]⟩, ⟨"up", 1, .bool⟩])⟩]
    let path : Shape := .record "Path" [⟨"moves", 4, .list (.record "Move"
      [⟨"to", 1, .record "Pair" [⟨"y", 1, .u8⟩, ⟨"x", 0, .u8⟩]⟩, ⟨"to", 0, .bool⟩])⟩]
    let flat : Shape := .record "Walk" [⟨"steps", 0, .list (.record "Step"
      [⟨"x", 0, .u8⟩, ⟨"y", 1, .u8⟩, ⟨"up", 1, .bool⟩])⟩]
    let place : Splice walk flat := .record (.inside (.list (.record .here)))
    let v : Value := .record [.list [.record [.record [.u8 1, .u8 2], .bool true],
      .record [.record [.u8 3, .u8 4], .bool false]]]
    let spliced : Value := .record [.list [.record [.u8 1, .u8 2, .bool true],
      .record [.u8 3, .u8 4, .bool false]]]
    let short : Value := .record [.list [.record [.record [.u8 1], .bool true]]]
    let e : Bytes := [0, 0, 0, 2, 1, 2, 1, 3, 4, 0]
    let c : Cursor := ⟨[9, 0, 0, 0, 2, 1, 2, 1, 3], 1⟩
    (Cursor.ofBytes e).run flat.decode = (⟨.ok spliced, []⟩, ⟨e, 10⟩) ∧
    c.run path.decode = (⟨.error (.insufficientBytes 1 0), []⟩, ⟨c.buffer, 9⟩) ∧
    c.run flat.decode = (⟨.error (.insufficientBytes 1 0), []⟩, ⟨c.buffer, 9⟩) ∧
    (short.encode walk).Alike (short.encode path) ∧
    (short.encode walk).fault? = some (.fieldCountMismatch "Point" 2 1) ∧
    (short.encode path).fault? = some (.fieldCountMismatch "Pair" 2 1) ∧
    v.Fits walk ∧ place.value v = spliced ∧ (spliced.encode flat).toExcept = .ok e := by
  intro walk path flat place v spliced short e c
  obtain ⟨hnames, hframes⟩ := codec_blind_to_names_and_framing
  obtain ⟨hpath, hshort⟩ := hnames walk path (by decide +kernel)
  obtain ⟨hflat, hfits⟩ := hframes walk flat place
  have hv : v.Fits walk := Value.fits_iff_findSome?.2 (by decide +kernel)
  have hread : (Cursor.ofBytes e).run walk.decode = (⟨.ok v, []⟩, ⟨e, 10⟩) := by decide +kernel
  have hcut : c.run walk.decode = (⟨.error (.insufficientBytes 1 0), []⟩, ⟨c.buffer, 9⟩) := by
    decide +kernel
  obtain ⟨-, e', he', hspliced⟩ := hfits v hv
  refine ⟨?_, ?_, ?_, (hshort short).1, by decide +kernel, by decide +kernel, hv,
    rfl, ?_⟩
  · rw [hflat, hread]
    rfl
  · rw [← hpath, hcut]
  · rw [hflat, hcut]
    rfl
  · have hwritten : (v.encode walk).toExcept = .ok e := by decide +kernel
    rw [hwritten] at he'
    cases he'
    exact hspliced

end PeerWire
