import Mathlib.Data.List.TakeWhile
import PeerWire.Proofs.Canonical

/-!
# Values that fit a shape

`v.Fits k` says that the value `v` is one that the shape `k` allows: the kinds agree at every node,
runs of bytes and records have the declared size, and no text or list is too long for its 32-bit
length. Writing is checked node by node, in wire order: a node comes before the nodes in it, and
what is wrong with a node (`Node.offence?`) is found before anything of it is written. So a value is
written just if it fits, and otherwise the writing ends at the first node that offends, with the
output of the nodes before it. Main statement: `Value.put_encode_iff_fits`.
-/

namespace PeerWire

/-! ## Fitting values -/

inductive Value.Fits : Value → Shape → Prop where
  | u8 (n : UInt8) : Fits (.u8 n) .u8
  | u16 (n : UInt16) : Fits (.u16 n) .u16
  | u32 (n : UInt32) : Fits (.u32 n) .u32
  | u64 (n : UInt64) : Fits (.u64 n) .u64
  | bool (b : Bool) : Fits (.bool b) .bool
  | fixedBytes (bytes : Bytes) : Fits (.fixedBytes bytes) (.fixedBytes bytes.length)
  | string {text : String} (hlen : (Utf8.encode text).length < BigEndian.capacity 4) :
      Fits (.string text) .string
  | list {items : List Value} {element : Shape} (hlen : items.length < BigEndian.capacity 4)
      (hitems : ∀ v ∈ items, Fits v element) : Fits (.list items) (.list element)
  | absent {inner : Shape} : Fits (.optional none) (.optional inner)
  | present {v : Value} {inner : Shape} (hv : Fits v inner) :
      Fits (.optional (some v)) (.optional inner)
  | record {name : String} {values : List Value} {fields : List Field}
      (hlen : values.length = fields.length)
      (hvalues : ∀ p ∈ values.zip (fields.map FieldOf.shape), Fits p.1 p.2) :
      Fits (.record values) (.record name fields)

/-! ## Nodes -/

/-- A value inside a value, with the shape that is declared for it. -/
structure Node where
  value : Value
  shape : Shape

namespace Node

def overflow? (length : Nat) : Option WireError :=
  if length < BigEndian.capacity 4 then none else some (.lengthOverflow length)

theorem overflow?_eq_none_iff {length : Nat} :
    overflow? length = none ↔ length < BigEndian.capacity 4 := by
  simp [overflow?]

/-- What is wrong with a node by itself, whatever is in it. -/
def offence? : Node → Option WireError
  | ⟨.fixedBytes bytes, .fixedBytes size⟩ =>
    if bytes.length = size then none else some (.fixedSizeMismatch size bytes.length)
  | ⟨.string text, .string⟩ => overflow? (Utf8.encode text).length
  | ⟨.list items, .list _⟩ => overflow? items.length
  | ⟨.record values, .record name fields⟩ =>
    if values.length = fields.length then none
    else some (.fieldCountMismatch name fields.length values.length)
  | ⟨v, k⟩ => if v.kind = k.kind then none else some (.kindMismatch k.kind v.kind)

/-- What is written for a node ahead of the nodes in it. -/
def writes (n : Node) : List Bytes :=
  match n.value with
  | .u8 n => [BigEndian.encode 1 n.toNat]
  | .u16 n => [BigEndian.encode 2 n.toNat]
  | .u32 n => [BigEndian.encode 4 n.toNat]
  | .u64 n => [BigEndian.encode 8 n.toNat]
  | .bool b => [[if b then 1 else 0]]
  | .fixedBytes bytes => [bytes]
  | .string text => [BigEndian.encode 4 (Utf8.encode text).length, Utf8.encode text]
  | .list items => [BigEndian.encode 4 items.length]
  | .optional v? => [[if v?.isSome then 1 else 0]]
  | .record _ => []

/-- The bytes of some nodes, one after the other. -/
def output (nodes : List Node) : Bytes := (nodes.flatMap writes).flatten

/-- A node that offends is not written, and writing ends there. -/
def emission (n : Node) : Emission :=
  match n.offence? with
  | none => ⟨n.writes, none⟩
  | some e => .fail e

end Node

namespace Value

mutual
/-- The nodes of a value in wire order. -/
def nodes : Value → Shape → List Node
  | list items, .list element =>
    ⟨list items, .list element⟩ :: nodesAll items (List.replicate items.length element)
  | optional (some v), .optional inner => ⟨optional (some v), .optional inner⟩ :: v.nodes inner
  | record values, .record name fields =>
    ⟨record values, .record name fields⟩ :: nodesAll values (fields.map FieldOf.shape)
  | v, k => [⟨v, k⟩]
def nodesAll : List Value → List Shape → List Node
  | v :: vs, k :: ks => v.nodes k ++ nodesAll vs ks
  | _, _ => []
end

end Value

theorem Node.offence?_of_kind_ne {v : Value} {k : Shape} (h : v.kind ≠ k.kind) :
    Node.offence? ⟨v, k⟩ = some (.kindMismatch k.kind v.kind) := by
  unfold offence?
  split <;> simp_all [Value.kind, Shape.kind]

namespace Value

/-! ## Fitting, node by node -/

theorem Fits.kind_eq {v : Value} {k : Shape} (h : v.Fits k) : v.kind = k.kind := by
  cases h <;> rfl

theorem forall_mem_zip_replicate {items : List Value} {element : Shape}
    {P : Value × Shape → Prop} :
    (∀ p ∈ items.zip (List.replicate items.length element), P p) ↔ ∀ v ∈ items, P (v, element) := by
  induction items with
  | nil => simp
  | cons v vs ih =>
    rw [List.length_cons, List.replicate_succ, List.zip_cons_cons, List.forall_mem_cons, ih,
      List.forall_mem_cons]

theorem zipWith_eq_nil {α : Type} {f : Value → Shape → α} {vs : List Value} {ks : List Shape}
    (h : ∀ v vs' k ks', vs = v :: vs' → ks = k :: ks' → False) : List.zipWith f vs ks = [] := by
  rcases vs with _ | ⟨v, vs⟩
  · rfl
  · rcases ks with _ | ⟨k, ks⟩
    · rfl
    · exact (h v vs k ks rfl rfl).elim

/-- A value with no values in it, as far as the shape looks into it. -/
theorem fits_iff_of_leaf {v : Value} {k : Shape}
    (hlist : ∀ items element, v = .list items → k = .list element → False)
    (hsome : ∀ w inner, v = .optional (some w) → k = .optional inner → False)
    (hrecord : ∀ values name fields, v = .record values → k = .record name fields → False) :
    v.Fits k ↔ Node.offence? ⟨v, k⟩ = none := by
  by_cases hk : v.kind = k.kind
  · cases v <;> cases k <;> cases hk
    · exact ⟨fun _ => rfl, fun _ => .u8 _⟩
    · exact ⟨fun _ => rfl, fun _ => .u16 _⟩
    · exact ⟨fun _ => rfl, fun _ => .u32 _⟩
    · exact ⟨fun _ => rfl, fun _ => .u64 _⟩
    · exact ⟨fun _ => rfl, fun _ => .bool _⟩
    · rename_i bytes size
      refine ⟨fun h => ?_, fun h => ?_⟩
      · cases h
        exact if_pos rfl
      · obtain rfl : bytes.length = size := by simpa [Node.offence?] using h
        exact .fixedBytes bytes
    · rw [Node.offence?, Node.overflow?_eq_none_iff]
      refine ⟨fun h => ?_, .string⟩
      cases h
      assumption
    · exact (hlist _ _ rfl rfl).elim
    · rename_i v? inner
      cases v? with
      | none => exact ⟨fun _ => rfl, fun _ => .absent⟩
      | some w => exact (hsome w inner rfl rfl).elim
    · exact (hrecord _ _ _ rfl rfl).elim
  · have hnot : ¬ v.Fits k := fun hfits => hk hfits.kind_eq
    simp [hnot, Node.offence?_of_kind_ne hk]

theorem fits_iff_nodes (v : Value) (k : Shape) :
    v.Fits k ↔ ∀ n ∈ v.nodes k, n.offence? = none := by
  induction v, k using nodes.induct (motive_2 := fun vs ks =>
    (∀ p ∈ vs.zip ks, p.1.Fits p.2) ↔ ∀ n ∈ nodesAll vs ks, n.offence? = none) with
  | case1 items element ih =>
    rw [nodes, List.forall_mem_cons, ← ih, Node.offence?, Node.overflow?_eq_none_iff,
      forall_mem_zip_replicate]
    refine ⟨fun h => ?_, fun ⟨hlen, hitems⟩ => .list hlen hitems⟩
    cases h with
    | list hlen hitems => exact ⟨hlen, hitems⟩
  | case2 v inner ih =>
    rw [nodes, List.forall_mem_cons, ← ih]
    refine ⟨fun h => ?_, fun ⟨_, hv⟩ => .present hv⟩
    cases h with
    | present hv => exact ⟨rfl, hv⟩
  | case3 values name fields ih =>
    rw [nodes, List.forall_mem_cons, ← ih, Node.offence?]
    refine ⟨fun h => ?_, fun ⟨hlen, hvalues⟩ => .record (by simpa using hlen) hvalues⟩
    cases h with
    | record hlen hvalues => exact ⟨if_pos hlen, hvalues⟩
  | case4 v k hlist hsome hrecord =>
    rw [nodes, List.forall_mem_singleton]
    · exact fits_iff_of_leaf hlist hsome hrecord
    all_goals assumption
  | case5 v vs k ks ihv ihvs =>
    rw [nodesAll, List.forall_mem_append, ← ihv, ← ihvs]
    exact List.forall_mem_cons
  | case6 vs ks h =>
    have hzip : vs.zip ks = [] := zipWith_eq_nil h
    rw [nodesAll, hzip]
    · simp
    · exact h

/-! ## Writing, node by node -/

theorem emission_list (items : List Value) (element : Shape) :
    Node.emission ⟨list items, .list element⟩ = .length items.length := by
  by_cases h : items.length < BigEndian.capacity 4 <;>
    simp [Node.emission, Node.offence?, Node.overflow?, Node.writes, Emission.length,
      Emission.write, h]

theorem encode_of_leaf {v : Value} {k : Shape}
    (hlist : ∀ items element, v = .list items → k = .list element → False)
    (hsome : ∀ w inner, v = .optional (some w) → k = .optional inner → False)
    (hrecord : ∀ values name fields, v = .record values → k = .record name fields → False) :
    v.encode k = Node.emission ⟨v, k⟩ := by
  by_cases hk : v.kind = k.kind
  · cases v <;> cases k <;> cases hk
    · rfl
    · rfl
    · rfl
    · rfl
    · rfl
    · rename_i bytes size
      by_cases h : bytes.length = size <;>
        simp [encode, Node.emission, Node.offence?, Node.writes, Emission.write, h]
    · rename_i text
      by_cases h : (Utf8.encode text).length < BigEndian.capacity 4 <;>
        simp [encode, Emission.text, Node.emission, Node.offence?, Node.overflow?, Node.writes,
          Emission.length, Emission.write, Emission.append_def, Emission.append, Emission.fail, h]
    · exact (hlist _ _ rfl rfl).elim
    · rename_i v? inner
      cases v? with
      | none => rfl
      | some w => exact (hsome w inner rfl rfl).elim
    · exact (hrecord _ _ _ rfl rfl).elim
  · rw [encode_of_kind_ne hk, Node.emission, Node.offence?_of_kind_ne hk]

theorem encode_eq_concat (v : Value) (k : Shape) :
    v.encode k = Emission.concat ((v.nodes k).map Node.emission) := by
  induction v, k using nodes.induct (motive_2 := fun vs ks =>
    encodeAll vs ks = Emission.concat ((nodesAll vs ks).map Node.emission)) with
  | case1 items element ih =>
    rw [encode, nodes, List.map_cons, Emission.concat, ← ih, emission_list, encodeItems_eq]
  | case2 v inner ih =>
    rw [encode, nodes, List.map_cons, Emission.concat, ← ih]
    rfl
  | case3 values name fields ih =>
    rw [encode, nodes, List.map_cons, Emission.concat, ← ih, encodeFields_eq, Node.emission,
      Node.offence?]
    by_cases hlen : values.length = fields.length
    · rw [if_pos hlen, if_pos hlen]
      rfl
    · rw [if_neg hlen, if_neg hlen]
      rfl
  | case4 v k hlist hsome hrecord =>
    rw [nodes, encode_of_leaf hlist hsome hrecord]
    · exact (Emission.append_done _).symm
    all_goals assumption
  | case5 v vs k ks ihv ihvs =>
    rw [nodesAll, List.map_append, Emission.concat_append, ← ihv, ← ihvs]
    rfl
  | case6 vs ks h =>
    rw [nodesAll, encodeAll, zipWith_eq_nil h]
    · rfl
    · exact h

theorem concat_map_emission (ns : List Node) :
    Emission.concat (ns.map Node.emission) =
      ⟨(ns.takeWhile fun n => n.offence? = none).flatMap Node.writes,
        ns.findSome? Node.offence?⟩ := by
  induction ns with
  | nil => rfl
  | cons n ns ih =>
    rw [List.map_cons, Emission.concat, ih, Node.emission]
    cases h : n.offence? <;>
      simp [h, Emission.append_def, Emission.append, Emission.fail]

/-- What is written is the output of the nodes up to the first that offends. -/
theorem encode_eq_first_offence (v : Value) (k : Shape) :
    v.encode k = ⟨((v.nodes k).takeWhile fun n => n.offence? = none).flatMap Node.writes,
      (v.nodes k).findSome? Node.offence?⟩ := by
  rw [encode_eq_concat, concat_map_emission]

theorem fits_iff_findSome? {v : Value} {k : Shape} :
    v.Fits k ↔ (v.nodes k).findSome? Node.offence? = none := by
  rw [fits_iff_nodes, List.findSome?_eq_none_iff]

theorem toExcept_encode_of_fits {v : Value} {k : Shape} (h : v.Fits k) :
    (v.encode k).toExcept = .ok (Node.output (v.nodes k)) := by
  have hall : (v.nodes k).takeWhile (fun n => n.offence? = none) = v.nodes k := by
    apply List.takeWhile_eq_self_iff.2
    simpa using (fits_iff_nodes v k).1 h
  rw [encode_eq_first_offence, fits_iff_findSome?.1 h, hall]
  rfl

theorem toExcept_encode_of_offence {v : Value} {k : Shape} {e : WireError}
    (h : (v.nodes k).findSome? Node.offence? = some e) : (v.encode k).toExcept = .error e := by
  rw [encode_eq_first_offence, h]
  rfl

end Value

/-! ## Decoded values -/

mutual
/-- Of a value that was read, only a text can offend. -/
theorem Derivation.exists_text_of_offence {k : Shape} {w : Bytes} {v : Value} {n : Node} :
    (d : Derivation k w v) → n ∈ v.nodes k → n.offence? ≠ none →
      ∃ text ∈ v.texts, n = ⟨.string text, .string⟩
  | .u8 _, hn, h | .u16 _, hn, h | .u32 _, hn, h | .u64 _, hn, h | .bool _, hn, h
  | .absent, hn, h => by
    obtain rfl := List.mem_singleton.1 hn
    exact absurd rfl h
  | .fixedBytes bytes, hn, h => by
    obtain rfl := List.mem_singleton.1 hn
    exact absurd (if_pos rfl) h
  | .string bytes _, hn, _ => ⟨_, List.mem_singleton.2 rfl, List.mem_singleton.1 hn⟩
  | .list hlen ds, hn, h => by
    rcases List.mem_cons.1 hn with rfl | hn
    · exact absurd (Node.overflow?_eq_none_iff.2 hlen) h
    · exact ds.exists_text_of_offence hn h
  | .present _ _ d, hn, h => by
    rcases List.mem_cons.1 hn with rfl | hn
    · exact absurd rfl h
    · exact d.exists_text_of_offence hn h
  | .record ds, hn, h => by
    rcases List.mem_cons.1 hn with rfl | hn
    · have hlen := ds.length_eq
      rw [List.length_map] at hlen
      exact absurd (if_pos hlen) h
    · exact ds.exists_text_of_offence hn h
theorem Derivations.exists_text_of_offence {ks : List Shape} {w : Bytes} {vs : List Value}
    {n : Node} :
    (ds : Derivations ks w vs) → n ∈ Value.nodesAll vs ks → n.offence? ≠ none →
      ∃ text ∈ Value.textsAll vs, n = ⟨.string text, .string⟩
  | .nil, hn, _ => by cases hn
  | .cons d ds, hn, h => by
    rcases List.mem_append.1 hn with hn | hn
    · obtain ⟨text, htext, rfl⟩ := d.exists_text_of_offence hn h
      exact ⟨text, List.mem_append_left _ htext, rfl⟩
    · obtain ⟨text, htext, rfl⟩ := ds.exists_text_of_offence hn h
      exact ⟨text, List.mem_append_right _ htext, rfl⟩
end

/-- A text that offends in a value that was read is what repair made of fewer bytes. -/
theorem Shape.exists_raw_of_offence {k : Shape} {v : Value} {input : Bytes}
    (h : (k.decode input).result = .ok v) {n : Node} (hn : n ∈ v.nodes k)
    (hoff : n.offence? ≠ none) :
    ∃ raw : Bytes, (BigEndian.encode 4 raw.length ++ raw) <:+: input ∧
      raw.length < BigEndian.capacity 4 ∧ n = ⟨.string (Utf8.decodeLossy raw), .string⟩ ∧
      BigEndian.capacity 4 ≤ (Utf8.encode (Utf8.decodeLossy raw)).length := by
  have hread : k.decode input = ⟨.ok v, (k.decode input).rest, (k.decode input).events⟩ := by
    rw [← h]
  obtain ⟨w, d, hinput, -, -⟩ := k.exists_derivation hread
  obtain ⟨text, htext, rfl⟩ := d.exists_text_of_offence hn hoff
  obtain ⟨raw, hlen, hspelled, -, rfl⟩ := d.exists_readFrom htext
  rw [Node.offence?, Ne, Node.overflow?_eq_none_iff, Nat.not_lt] at hoff
  refine ⟨raw, hspelled.trans ?_, hlen, rfl, hoff⟩
  rw [hinput]
  exact (List.prefix_append _ _).isInfix

namespace Value

/-! ## Records -/

theorem marshal_of_shape_kind {v : Value} {k : Shape} (h : k.kind ≠ .record) :
    v.marshal k = .error (.rootNotRecord k.kind) := by
  cases k <;> first | rfl | exact absurd rfl h

theorem marshal_of_kind {v : Value} {k : Shape} (hk : k.kind = .record) (h : v.kind ≠ .record) :
    v.marshal k = .error (.rootNotRecord v.kind) := by
  cases k <;> cases hk
  exact if_pos h

theorem marshal_of_records {v : Value} {k : Shape} (hk : k.kind = .record)
    (hv : v.kind = .record) : v.marshal k = (v.encode k).toExcept := by
  cases k <;> cases hk
  exact if_neg (not_not.2 hv)

theorem marshal_eq_ok_iff {v : Value} {k : Shape} {e : Bytes} :
    v.marshal k = .ok e ↔ k.kind = .record ∧ v.Fits k ∧ e = Node.output (v.nodes k) := by
  by_cases hk : k.kind = .record
  · by_cases hv : v.kind = .record
    · rw [marshal_of_records hk hv]
      cases hoff : (v.nodes k).findSome? Node.offence? with
      | none =>
        have hfits := fits_iff_findSome?.2 hoff
        simp [toExcept_encode_of_fits hfits, hk, hfits, eq_comm]
      | some e' =>
        have hfits : ¬ v.Fits k := by simp [fits_iff_findSome?, hoff]
        simp [toExcept_encode_of_offence hoff, hfits]
    · have hfits : ¬ v.Fits k := fun h => hv (h.kind_eq.trans hk)
      simp [marshal_of_kind hk hv, hfits]
  · simp [marshal_of_shape_kind hk, hk]

/-! ## What is written -/

/-- Into a buffer without a limit, a value is written just if it fits its shape. Otherwise the first
node in wire order that offends says how the writing fails, and nothing is written but the nodes
before it; what the buffer held stays in either case. A value that was read fits, but for texts that
repair made too long. As a record, a value is written if it fits and the shape is one of a record,
and the shape is looked at before the value. -/
theorem put_encode_iff_fits (v : Value) (k : Shape) (before : Bytes) :
    let written := (⟨before, none⟩ : Sink).put (v.encode k)
    (written.1 = .ok () ↔ v.Fits k) ∧
    (v.Fits k → written.2 = ⟨before ++ Node.output (v.nodes k), none⟩) ∧
    (¬ v.Fits k → ∃ e, (v.nodes k).findSome? Node.offence? = some e ∧ written = (.error e,
      ⟨before ++ Node.output ((v.nodes k).takeWhile fun n => n.offence? = none), none⟩)) ∧
    (∀ input, (k.decode input).result = .ok v → ∀ n ∈ v.nodes k, n.offence? ≠ none →
      ∃ raw : Bytes, (BigEndian.encode 4 raw.length ++ raw) <:+: input ∧
        raw.length < BigEndian.capacity 4 ∧ n = ⟨.string (Utf8.decodeLossy raw), .string⟩ ∧
        BigEndian.capacity 4 ≤ (Utf8.encode (Utf8.decodeLossy raw)).length) ∧
    (∀ e, v.marshal k = .ok e ↔ k.kind = .record ∧ v.Fits k ∧ e = Node.output (v.nodes k)) ∧
    (k.kind ≠ .record → v.marshal k = .error (.rootNotRecord k.kind)) ∧
    (k.kind = .record → v.kind ≠ .record → v.marshal k = .error (.rootNotRecord v.kind)) ∧
    (k.kind = .record → v.kind = .record →
      ∀ e, v.marshal k = .error e ↔ written.1 = .error e) := by
  intro written
  have hput : written =
      ((v.encode k).toExcept.map fun _ => (), ⟨before ++ (v.encode k).bytes, none⟩) :=
    Sink.put_unlimited _ _
  have hfits (h : v.Fits k) : written = (.ok (), ⟨before ++ Node.output (v.nodes k), none⟩) := by
    have hok := toExcept_encode_of_fits h
    rw [hput, hok, (Emission.toExcept_eq_ok.1 hok).2]
    rfl
  have hoffends (h : ¬ v.Fits k) : ∃ e, (v.nodes k).findSome? Node.offence? = some e ∧ written =
      (.error e,
        ⟨before ++ Node.output ((v.nodes k).takeWhile fun n => n.offence? = none), none⟩) := by
    rw [fits_iff_findSome?] at h
    obtain ⟨e, he⟩ := Option.ne_none_iff_exists'.1 h
    refine ⟨e, he, ?_⟩
    rw [hput, toExcept_encode_of_offence he, encode_eq_first_offence]
    rfl
  refine ⟨⟨fun hok => ?_, fun h => by rw [hfits h]⟩, fun h => by rw [hfits h], hoffends,
    fun input h n => Shape.exists_raw_of_offence h, fun e => marshal_eq_ok_iff,
    marshal_of_shape_kind, marshal_of_kind, fun hk hv e => ?_⟩
  · by_contra h
    obtain ⟨e, -, herr⟩ := hoffends h
    rw [herr] at hok
    cases hok
  · rw [marshal_of_records hk hv, hput]
    cases (v.encode k).toExcept <;> simp [Except.map]

/-- The third mark is a byte too long, and the text that offends behind the marks is not reached. -/
theorem put_encode_iff_fits_long_mark :
    let k : Shape := .record "Note" [⟨"open", 0, .bool⟩,
      ⟨"marks", 1, .list (.optional (.fixedBytes 2))⟩, ⟨"text", 2, .string⟩]
    let v : Value := .record [.bool true,
      .list [.optional none, .optional (some (.fixedBytes [7, 8])),
        .optional (some (.fixedBytes [7, 8, 9])), .optional none], .u8 5]
    ¬ v.Fits k ∧
    (⟨[0xaa], none⟩ : Sink).put (v.encode k) = (.error (.fixedSizeMismatch 2 3),
      ⟨[0xaa, 1, 0, 0, 0, 4, 0, 1, 7, 8, 1], none⟩) ∧
    v.marshal k = .error (.fixedSizeMismatch 2 3) := by
  intro k v
  have hfirst : (v.nodes k).findSome? Node.offence? = some (.fixedSizeMismatch 2 3) := by
    decide +kernel
  have hbefore : Node.output ((v.nodes k).takeWhile fun n => n.offence? = none) =
      [1, 0, 0, 0, 4, 0, 1, 7, 8, 1] := by
    decide +kernel
  have hnot : ¬ v.Fits k := by
    rw [fits_iff_findSome?, hfirst]
    exact nofun
  obtain ⟨-, -, hoffends, -, -, -, -, hrecord⟩ := put_encode_iff_fits v k [0xaa]
  obtain ⟨e, he, hput⟩ := hoffends hnot
  obtain rfl := Option.some.inj (he.symm.trans hfirst)
  rw [hbefore] at hput
  exact ⟨hnot, hput, (hrecord rfl rfl _).2 (by rw [hput])⟩

end Value

end PeerWire
