import PeerWire.Proofs.Cursors
import PeerWire.Proofs.RoundTrip

/-!
# Sizes

What `minSize` and `fixedSize?` say of a shape, against what is written and read under it. Some
value is written in `minSize` bytes and none in fewer (`Shape.hasLength_minSize`). A shape has a
fixed size just if records alone lead to no text, list or option in it
(`Shape.fixedSize?_eq_some_iff`), and then its reader takes as many bytes and accepts any. Otherwise
its values have different lengths, unless all that records lead to are lists and options of what
takes up no bytes: then every value has one length, although `fixedSize?` does not tell it. Main
statement: `Shape.minSize_fixedSize?_exact`.
-/

namespace PeerWire

namespace Shape

/-! ## Lengths of written values -/

/-- Some value of the shape is written in `n` bytes. -/
def HasLength (k : Shape) (n : Nat) : Prop :=
  ∃ (v : Value) (w : Bytes), (v.encode k).toExcept = .ok w ∧ w.length = n

/-- Some values of the shapes are written, one after the other, in `n` bytes. -/
def AllHaveLength (ks : List Shape) (n : Nat) : Prop :=
  ∃ (vs : List Value) (w : Bytes),
    vs.length = ks.length ∧ (Value.encodeAll vs ks).toExcept = .ok w ∧ w.length = n

theorem AllHaveLength.nil : AllHaveLength [] 0 := ⟨[], [], rfl, rfl, rfl⟩

theorem AllHaveLength.cons {k : Shape} {ks : List Shape} {m n : Nat} (h : k.HasLength m)
    (hs : AllHaveLength ks n) : AllHaveLength (k :: ks) (m + n) := by
  obtain ⟨v, w, hv, rfl⟩ := h
  obtain ⟨vs, ws, hlen, hvs, rfl⟩ := hs
  refine ⟨v :: vs, w ++ ws, congrArg (· + 1) hlen, ?_, List.length_append⟩
  exact Emission.append_eq_ok.2 ⟨w, ws, hv, hvs, rfl⟩

theorem AllHaveLength.record {name : String} {fields : List Field} {n : Nat}
    (h : AllHaveLength (fields.map FieldOf.shape) n) : (record name fields).HasLength n := by
  obtain ⟨vs, w, hlen, hvs, rfl⟩ := h
  rw [List.length_map] at hlen
  refine ⟨.record vs, w, ?_, rfl⟩
  rw [Value.encode, if_pos hlen, Value.encodeFields_eq]
  exact hvs

theorem AllHaveLength.list {element : Shape} (count : Nat) {n : Nat}
    (hcount : count < BigEndian.capacity 4)
    (h : AllHaveLength (List.replicate count element) n) : (list element).HasLength (4 + n) := by
  obtain ⟨vs, w, hlen, hvs, rfl⟩ := h
  rw [List.length_replicate] at hlen
  subst hlen
  refine ⟨.list vs, BigEndian.encode 4 vs.length ++ w, ?_, ?_⟩
  · rw [Value.encode, Value.encodeItems_eq]
    exact Emission.append_eq_ok.2 ⟨_, w, Emission.length_eq_ok.2 ⟨hcount, rfl⟩, hvs, rfl⟩
  · rw [List.length_append, BigEndian.length_encode]

theorem hasLength_list (element : Shape) : (list element).HasLength 4 :=
  AllHaveLength.list 0 (by decide) .nil

theorem HasLength.list {element : Shape} {n : Nat} (h : element.HasLength n) :
    (list element).HasLength (4 + n) :=
  AllHaveLength.list 1 (by decide) (.cons h .nil)

theorem hasLength_optional (inner : Shape) : (optional inner).HasLength 1 :=
  ⟨.optional none, [0], rfl, rfl⟩

theorem HasLength.optional {inner : Shape} {n : Nat} (h : inner.HasLength n) :
    (optional inner).HasLength (1 + n) := by
  obtain ⟨v, w, hv, rfl⟩ := h
  refine ⟨.optional (some v), [1] ++ w, ?_, List.length_append⟩
  exact Emission.append_eq_ok.2 ⟨[1], w, rfl, hv, rfl⟩

theorem hasLength_string (text : String) (h : (Utf8.encode text).length < BigEndian.capacity 4) :
    string.HasLength (4 + (Utf8.encode text).length) := by
  refine ⟨.string text, _, Emission.text_eq_ok.2 ⟨h, rfl⟩, ?_⟩
  rw [List.length_append, BigEndian.length_encode]

theorem hasLength_fixedBytes (size : Nat) : (fixedBytes size).HasLength size := by
  refine ⟨.fixedBytes (List.replicate size 0), List.replicate size 0, ?_, List.length_replicate⟩
  rw [Value.encode, if_pos List.length_replicate]
  exact Emission.write_eq_ok.2 rfl

theorem allHaveLength_sum {ks : List Shape} (h : ∀ k ∈ ks, k.HasLength k.minSize) :
    AllHaveLength ks (ks.map minSize).sum := by
  induction ks with
  | nil => exact .nil
  | cons k ks ih =>
    rw [List.map_cons, List.sum_cons]
    exact .cons (h k List.mem_cons_self) (ih fun k hk => h k (List.mem_cons_of_mem _ hk))

theorem hasLength_minSize (k : Shape) : k.HasLength k.minSize := by
  induction k using Shape.induction with
  | u8 => exact ⟨.u8 0, _, rfl, BigEndian.length_encode 1 0⟩
  | u16 => exact ⟨.u16 0, _, rfl, BigEndian.length_encode 2 0⟩
  | u32 => exact ⟨.u32 0, _, rfl, BigEndian.length_encode 4 0⟩
  | u64 => exact ⟨.u64 0, _, rfl, BigEndian.length_encode 8 0⟩
  | bool => exact ⟨.bool false, [0], rfl, rfl⟩
  | fixedBytes size => exact hasLength_fixedBytes size
  | string => exact hasLength_string "" (by decide)
  | list element _ => exact hasLength_list element
  | optional inner _ => exact hasLength_optional inner
  | record name fields ih =>
    rw [minSize, fieldsMinSize_eq]
    exact (allHaveLength_sum ih).record

theorem HasLength.minSize_le {k : Shape} {n : Nat} (h : k.HasLength n) : k.minSize ≤ n := by
  obtain ⟨v, w, hv, rfl⟩ := h
  obtain ⟨d, -⟩ := Value.exists_derivation k hv
  exact d.minSize_le

/-! ## Shapes whose values all have one length -/

mutual
/-- The texts, lists and options that records alone lead to. -/
def flexible : Shape → List Shape
  | string => [string]
  | list element => [list element]
  | optional inner => [optional inner]
  | record _ fields => fieldsFlexible fields
  | _ => []
def fieldsFlexible : List Field → List Shape
  | [] => []
  | ⟨_, _, s⟩ :: fields => s.flexible ++ fieldsFlexible fields
end

theorem fieldsFlexible_eq (fields : List Field) :
    fieldsFlexible fields = (fields.map FieldOf.shape).flatMap flexible := by
  induction fields with
  | nil => rfl
  | cons f fields ih => rw [fieldsFlexible, ih, List.map_cons, List.flatMap_cons]

mutual
theorem fixedSize?_eq_some_iff : (k : Shape) → {n : Nat} →
    (k.fixedSize? = some n ↔ k.flexible = [] ∧ n = k.minSize)
  | .u8, _ | .u16, _ | .u32, _ | .u64, _ | .bool, _ | .fixedBytes _, _ => by
    simp [fixedSize?, flexible, minSize, eq_comm]
  | .string, _ | .list _, _ | .optional _, _ => by simp [fixedSize?, flexible]
  | .record _ fields, _ => fieldsFixedSize?_eq_some_iff fields
theorem fieldsFixedSize?_eq_some_iff : (fields : List Field) → {n : Nat} →
    (fieldsFixedSize? fields = some n ↔ fieldsFlexible fields = [] ∧ n = fieldsMinSize fields)
  | [], _ => by simp [fieldsFixedSize?, fieldsFlexible, fieldsMinSize, eq_comm]
  | ⟨_, _, s⟩ :: fields, n => by
    have hs := @fixedSize?_eq_some_iff s
    have hfields := @fieldsFixedSize?_eq_some_iff fields
    rw [fieldsFixedSize?, fieldsFlexible, fieldsMinSize, List.append_eq_nil_iff]
    constructor
    · intro h
      obtain ⟨m, hm, h⟩ := Option.bind_eq_some_iff.1 h
      obtain ⟨m', hm', h⟩ := Option.bind_eq_some_iff.1 h
      obtain ⟨hs, rfl⟩ := hs.1 hm
      obtain ⟨hfields, rfl⟩ := hfields.1 hm'
      exact ⟨⟨hs, hfields⟩, (Option.some.inj h).symm⟩
    · rintro ⟨⟨hnone, hnone'⟩, rfl⟩
      rw [hs.2 ⟨hnone, rfl⟩, hfields.2 ⟨hnone', rfl⟩]
      rfl
end

/-- Records alone lead to nothing but lists and options of what takes up no bytes. -/
def Hollow (k : Shape) : Prop :=
  ∀ s ∈ k.flexible, ∃ inner : Shape, inner.minSize = 0 ∧ (s = .list inner ∨ s = .optional inner)

theorem Hollow.of_flexible_eq_nil {k : Shape} (h : k.flexible = []) : k.Hollow := by
  intro s hs
  rw [h] at hs
  cases hs

theorem Hollow.of_minSize_eq_zero {k : Shape} (h : k.minSize = 0) : k.Hollow :=
  .of_flexible_eq_nil ((fixedSize?_eq_some_iff k).1 (fixedSize?_of_minSize_eq_zero k h)).1

theorem not_hollow_string : ¬ string.Hollow := by
  intro h
  obtain ⟨_, -, hs | hs⟩ := h string List.mem_cons_self
  · cases hs
  · cases hs

theorem hollow_list {element : Shape} : (list element).Hollow ↔ element.minSize = 0 := by
  unfold Hollow
  rw [flexible, List.forall_mem_singleton]
  simp

theorem hollow_optional {inner : Shape} : (optional inner).Hollow ↔ inner.minSize = 0 := by
  unfold Hollow
  rw [flexible, List.forall_mem_singleton]
  simp

theorem hollow_record {name : String} {fields : List Field} :
    (record name fields).Hollow ↔ ∀ k ∈ fields.map FieldOf.shape, k.Hollow := by
  unfold Hollow
  rw [flexible, fieldsFlexible_eq]
  constructor
  · exact fun h k hk s hs => h s (List.mem_flatMap.2 ⟨k, hk, hs⟩)
  · intro h s hs
    obtain ⟨k, hk, hs⟩ := List.mem_flatMap.1 hs
    exact h k hk s hs

end Shape

mutual
theorem Derivation.length_of_hollow {k : Shape} {w : Bytes} {v : Value} :
    Derivation k w v → k.Hollow → w.length = k.minSize
  | .u8 _, _ | .u16 _, _ | .u32 _, _ | .u64 _, _ => BigEndian.length_encode _ _
  | .bool _, _ | .fixedBytes _, _ | .absent, _ => rfl
  | .string _ _, h => absurd h Shape.not_hollow_string
  | @Derivation.list element w vs _ ds, h => by
    have hempty : element.minSize = 0 := Shape.hollow_list.1 h
    have hds := ds.length_of_hollow fun k hk => by
      obtain rfl := List.eq_of_mem_replicate hk
      exact .of_minSize_eq_zero hempty
    rw [List.map_replicate, List.sum_replicate_nat, hempty, Nat.mul_zero] at hds
    rw [List.length_append, BigEndian.length_encode, hds]
    rfl
  | .present _ _ d, h => by
    have hempty := Shape.hollow_optional.1 h
    have hd := d.length_of_hollow (.of_minSize_eq_zero hempty)
    rw [List.length_cons, hd, hempty]
    rfl
  | .record ds, h => by
    rw [Shape.minSize, Shape.fieldsMinSize_eq]
    exact ds.length_of_hollow (Shape.hollow_record.1 h)
theorem Derivations.length_of_hollow {ks : List Shape} {w : Bytes} {vs : List Value} :
    Derivations ks w vs → (∀ k ∈ ks, k.Hollow) → w.length = (ks.map Shape.minSize).sum
  | .nil, _ => rfl
  | .cons d ds, h => by
    have hd := d.length_of_hollow (h _ List.mem_cons_self)
    have hds := ds.length_of_hollow fun k hk => h k (List.mem_cons_of_mem _ hk)
    rw [List.length_append, hd, hds, List.map_cons, List.sum_cons]
end

namespace Shape

theorem HasLength.eq_of_hollow {k : Shape} {n : Nat} (h : k.HasLength n) (hk : k.Hollow) :
    n = k.minSize := by
  obtain ⟨v, w, hv, rfl⟩ := h
  obtain ⟨d, -⟩ := Value.exists_derivation k hv
  exact d.length_of_hollow hk

/-- A shape that asks for no bytes gets none. -/
theorem minSize_eq_zero_iff {k : Shape} : k.minSize = 0 ↔ ∀ n, k.HasLength n → n = 0 := by
  constructor
  · exact fun h n hn => (hn.eq_of_hollow (.of_minSize_eq_zero h)).trans h
  · exact fun h => h _ k.hasLength_minSize

/-! ## Shapes whose values differ in length -/

/-- Two values of the shape are written in different numbers of bytes. -/
def Varies (k : Shape) : Prop := ∃ m n, k.HasLength m ∧ k.HasLength n ∧ m ≠ n

/-- The other shapes of a record take no part in how one of them varies. -/
theorem exists_rest {k : Shape} {ks : List Shape} (h : k ∈ ks) :
    ∃ rest, ∀ n, k.HasLength n → AllHaveLength ks (n + rest) := by
  induction ks with
  | nil => cases h
  | cons k' ks ih =>
    rcases List.mem_cons.1 h with rfl | h
    · exact ⟨_, fun n hn => .cons hn (allHaveLength_sum fun k _ => k.hasLength_minSize)⟩
    · obtain ⟨rest, hrest⟩ := ih h
      refine ⟨k'.minSize + rest, fun n hn => ?_⟩
      rw [Nat.add_left_comm]
      exact .cons k'.hasLength_minSize (hrest n hn)

theorem varies_of_not_hollow (k : Shape) : ¬ k.Hollow → k.Varies := by
  induction k using Shape.induction with
  | u8 | u16 | u32 | u64 | bool => exact fun h => absurd (.of_flexible_eq_nil rfl) h
  | fixedBytes size => exact fun h => absurd (.of_flexible_eq_nil rfl) h
  | string =>
    have hempty := hasLength_string "" (by decide)
    have hone := hasLength_string "a" (by decide)
    exact fun _ => ⟨_, _, hempty, hone, by decide⟩
  | list element _ =>
    intro h
    rw [hollow_list] at h
    exact ⟨_, _, hasLength_list element, element.hasLength_minSize.list, by omega⟩
  | optional inner _ =>
    intro h
    rw [hollow_optional] at h
    exact ⟨_, _, hasLength_optional inner, inner.hasLength_minSize.optional, by omega⟩
  | record name fields ih =>
    intro h
    rw [hollow_record] at h
    simp only [not_forall] at h
    obtain ⟨k, hk, hvaries⟩ := h
    obtain ⟨m, n, hm, hn, hne⟩ := ih k hk hvaries
    obtain ⟨rest, hrest⟩ := exists_rest hk
    exact ⟨_, _, (hrest m hm).record, (hrest n hn).record, by omega⟩

theorem varies_iff_not_hollow (k : Shape) : k.Varies ↔ ¬ k.Hollow := by
  refine ⟨?_, k.varies_of_not_hollow⟩
  rintro ⟨m, n, hm, hn, hne⟩ hk
  exact hne ((hm.eq_of_hollow hk).trans (hn.eq_of_hollow hk).symm)

end Shape

/-! ## Readers that take a fixed number of bytes -/

namespace Reader

variable {α β : Type}

/-- The reader takes `n` bytes of any input that has as many. -/
def Takes (r : Reader α) (n : Nat) : Prop :=
  ∀ input : Bytes, n ≤ input.length → ∃ a es, r input = ⟨.ok a, input.drop n, es⟩

namespace Takes

theorem pure (a : α) : (pure a : Reader α).Takes 0 := fun _ _ => ⟨a, [], rfl⟩

theorem bind {r : Reader α} {f : α → Reader β} {m n : Nat} (hr : r.Takes m)
    (hf : ∀ a, (f a).Takes n) : (r >>= f).Takes (m + n) := fun input hlen => by
  obtain ⟨a, es, ha⟩ := hr input (by omega)
  obtain ⟨b, es', hb⟩ := hf a (input.drop m) (by rw [List.length_drop]; omega)
  refine ⟨b, es ++ es', ?_⟩
  rw [bind_of_ok ha, hb, List.drop_drop]

theorem take (n : Nat) : (take n).Takes n := fun _ hlen => ⟨_, [], take_of_le hlen⟩

theorem number (width : Nat) : (number width).Takes width := (take width).bind fun _ => pure _

theorem flag : flag.Takes 1
  | byte :: rest, _ => ⟨_, _, flag_cons byte rest⟩

theorem mapM {ι : Type} {f : ι → Reader α} {size : ι → Nat} {is : List ι}
    (h : ∀ i ∈ is, (f i).Takes (size i)) : (is.mapM f).Takes (is.map size).sum := by
  induction is with
  | nil =>
    rw [List.mapM_nil]
    exact pure []
  | cons i is ih =>
    rw [List.mapM_cons, List.map_cons, List.sum_cons]
    have htail := ih fun j hj => h j (List.mem_cons_of_mem _ hj)
    exact (h i List.mem_cons_self).bind fun a => htail.bind fun as => pure (a :: as)

end Takes

end Reader

namespace Shape

theorem takes_decode (k : Shape) : k.flexible = [] → k.decode.Takes k.minSize := by
  induction k using Shape.induction with
  | u8 | u16 | u32 | u64 =>
    intro _
    rw [decode]
    exact ((Reader.Takes.number _).bind fun _ => .pure _).bind fun _ => .pure _
  | bool =>
    intro _
    rw [decode]
    exact Reader.Takes.flag.bind fun _ => .pure _
  | fixedBytes size =>
    intro _
    rw [decode]
    exact (Reader.Takes.take size).bind fun _ => .pure _
  | string | list | optional => exact fun h => absurd h (List.cons_ne_nil _ _)
  | record name fields ih =>
    intro h
    rw [flexible, fieldsFlexible_eq, List.flatMap_eq_nil_iff] at h
    rw [decode, decodeFields_eq, minSize, fieldsMinSize_eq]
    exact (Reader.Takes.mapM fun k hk => ih k hk (h k hk)).bind fun _ => .pure _

/-- On fewer bytes than any value has, the reader finds too few. -/
theorem run_decode_short {k : Shape} {c : Cursor} (h : c.remaining < k.minSize) :
    ∃ needed remaining,
      (c.run k.decode).1.result = .error (.insufficientBytes needed remaining) := by
  rcases hread : k.decode c.rest with ⟨e | v, rest, es⟩
  · obtain ⟨needed, -, rfl, -⟩ := k.incremental_decode.of_error hread
    exact ⟨needed, rest.length, congrArg Reading.result hread⟩
  · obtain ⟨w, d, hd⟩ := k.exists_derivation hread
    have hmin := d.minSize_le
    rw [← Cursor.length_rest, hd.input_eq, List.length_append] at h
    omega

/-- Of as many bytes as every value has, the reader makes a value, and takes them. -/
theorem run_decode_of_flexible_eq_nil {k : Shape} (hk : k.flexible = []) {c : Cursor}
    (h : k.minSize ≤ c.remaining) : ∃ v es,
      c.run k.decode = (⟨.ok v, es⟩, ⟨c.buffer, c.position + k.minSize⟩) := by
  rw [← Cursor.length_rest] at h
  obtain ⟨v, es, hread⟩ := k.takes_decode hk c.rest h
  refine ⟨v, es, ?_⟩
  rw [Cursor.run_of_eq hread, List.length_drop, ← Cursor.length_rest, Nat.sub_sub_self h]

/-! ## What the sizes of a shape say -/

/-- No value is written in fewer bytes than `minSize`, some value is written in as many, and fewer
are never read. Where `fixedSize?` gives a size, it is that of every value, and that many bytes are
taken wherever there are as many, whatever they are. Where it gives none, two values differ in
length, unless records alone lead to nothing but lists and options of what takes up no bytes; then
all have the length of the shortest. -/
theorem minSize_fixedSize?_exact (k : Shape) :
    (∀ n, k.HasLength n → k.minSize ≤ n) ∧
    k.HasLength k.minSize ∧
    (∀ c : Cursor, c.remaining < k.minSize → ∃ needed remaining,
      (c.run k.decode).1.result = .error (.insufficientBytes needed remaining)) ∧
    (∀ n, k.fixedSize? = some n → n = k.minSize ∧ (∀ m, k.HasLength m → m = n) ∧
      ∀ c : Cursor, ((∃ v, (c.run k.decode).1.result = .ok v) ↔ n ≤ c.remaining) ∧
        (n ≤ c.remaining → (c.run k.decode).2 = ⟨c.buffer, c.position + n⟩)) ∧
    (k.fixedSize? = none → (k.Varies ↔ ¬ k.Hollow) ∧
      (k.Hollow → ∀ n, k.HasLength n → n = k.minSize)) ∧
    (k.minSize = 0 ↔ ∀ n, k.HasLength n → n = 0) := by
  refine ⟨fun n => HasLength.minSize_le, k.hasLength_minSize, fun c => run_decode_short,
    fun n hn => ?_, fun _ => ⟨k.varies_iff_not_hollow, fun hk n hn => hn.eq_of_hollow hk⟩,
    minSize_eq_zero_iff⟩
  obtain ⟨hflexible, rfl⟩ := k.fixedSize?_eq_some_iff.1 hn
  refine ⟨rfl, fun m hm => hm.eq_of_hollow (.of_flexible_eq_nil hflexible), fun c => ⟨⟨?_, ?_⟩, ?_⟩⟩
  · rintro ⟨v, hv⟩
    rcases Nat.lt_or_ge c.remaining k.minSize with hshort | hle
    · obtain ⟨_, _, herr⟩ := run_decode_short hshort
      rw [hv] at herr
      cases herr
    · exact hle
  · intro hle
    obtain ⟨v, es, hrun⟩ := run_decode_of_flexible_eq_nil hflexible hle
    exact ⟨v, by rw [hrun]⟩
  · intro hle
    obtain ⟨v, es, hrun⟩ := run_decode_of_flexible_eq_nil hflexible hle
    rw [hrun]

/-- A list of empty blocks, a number and an option of an empty record: always seven bytes, although
no size is fixed. A flag and a block have one; a text under a flag has many lengths. -/
theorem minSize_fixedSize?_exact_list_of_empty_blocks :
    let unit : Shape := .record "Unit" []
    let hollow : Shape := .record "Marks"
      [⟨"marks", 0, .list (.fixedBytes 0)⟩, ⟨"id", 1, .u16⟩, ⟨"seen", 2, .optional unit⟩]
    let fixed : Shape := .record "Point" [⟨"open", 0, .bool⟩, ⟨"hash", 1, .fixedBytes 2⟩]
    let loose : Shape := .record "Note" [⟨"point", 0, fixed⟩, ⟨"text", 1, .optional .string⟩]
    (hollow.fixedSize? = none ∧ hollow.Hollow ∧ ∀ n, hollow.HasLength n → n = 7) ∧
    (fixed.fixedSize? = some 3 ∧
      ((⟨[9, 5, 6, 7, 8], 1⟩ : Cursor).run fixed.decode).2 = ⟨[9, 5, 6, 7, 8], 4⟩ ∧
      ∃ needed remaining, ((⟨[9, 5, 6], 1⟩ : Cursor).run fixed.decode).1.result =
        .error (.insufficientBytes needed remaining)) ∧
    (loose.fixedSize? = none ∧ ¬ loose.Hollow ∧ loose.Varies) := by
  intro unit hollow fixed loose
  have hhollow : hollow.Hollow := by
    simp only [hollow, hollow_record, List.map_cons, List.map_nil, List.forall_mem_cons,
      hollow_list, hollow_optional]
    exact ⟨rfl, .of_flexible_eq_nil rfl, rfl, nofun⟩
  have hloose : ¬ loose.Hollow := by
    simp only [loose, hollow_record, List.map_cons, List.map_nil, List.forall_mem_cons,
      hollow_optional]
    rintro ⟨-, hstring, -⟩
    cases hstring
  obtain ⟨-, -, -, -, hnone, -⟩ := minSize_fixedSize?_exact hollow
  obtain ⟨-, -, hshort, hsome, -⟩ := minSize_fixedSize?_exact fixed
  obtain ⟨-, -, hread⟩ := hsome 3 (by decide)
  obtain ⟨-, -, -, -, hnone', -⟩ := minSize_fixedSize?_exact loose
  refine ⟨⟨by decide, hhollow, (hnone (by decide)).2 hhollow⟩,
    ⟨by decide, ?_, hshort _ (by decide)⟩, by decide, hloose, (hnone' (by decide)).1.2 hloose⟩
  exact (hread _).2 (by decide)

end Shape

end PeerWire
