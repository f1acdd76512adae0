import PeerWire.Proofs.Acceptance
import PeerWire.Proofs.Text
import PeerWire.Proofs.Writing

/-!
# Written values read back

What a value is written as is a derivation of that value, a silent one (`Value.exists_derivation`).
So a written value is read back unless one of its lists claims more elements than there are bytes
behind its count, which can only happen if the elements take up no bytes. Main statement:
`Value.run_decode_iff_covered`.
-/

namespace PeerWire

namespace Value

/-- The values written one after the other, each under its own shape. -/
def encodeAll (vs : List Value) (ks : List Shape) : Emission :=
  Emission.concat (List.zipWith encode vs ks)

mutual
/-- The lists inside a value in wire order, where `after` more bytes follow the written value. -/
def heads : Value → Shape → (after : Nat) → List ListHead
  | list items, .list element, after =>
    ⟨element, items.length, (encodeItems items element).bytes.length + after⟩ ::
      headsAll items (List.replicate items.length element) after
  | optional (some v), .optional inner, after => v.heads inner after
  | record values, .record _ fields, after => headsAll values (fields.map FieldOf.shape) after
  | _, _, _ => []
def headsAll : List Value → List Shape → (after : Nat) → List ListHead
  | v :: vs, k :: ks, after =>
    v.heads k ((encodeAll vs ks).bytes.length + after) ++ headsAll vs ks after
  | _, _, _ => []
end

theorem encodeItems_eq (items : List Value) (element : Shape) :
    encodeItems items element = encodeAll items (List.replicate items.length element) := by
  induction items with
  | nil => rfl
  | cons v vs ih =>
    rw [encodeItems, ih]
    rfl

theorem encodeFields_eq (values : List Value) (fields : List Field) :
    encodeFields values fields = encodeAll values (fields.map FieldOf.shape) := by
  induction values generalizing fields with
  | nil => cases fields <;> rfl
  | cons v vs ih =>
    cases fields with
    | nil => rfl
    | cons f fs =>
      rw [encodeFields, ih]
      rfl

/-! ## What is written is a derivation -/

theorem encode_of_kind_ne {v : Value} {k : Shape} (h : v.kind ≠ k.kind) :
    v.encode k = .fail (.kindMismatch k.kind v.kind) := by
  unfold encode
  split <;> first | exact absurd rfl h | rfl

theorem kind_eq_of_encode {v : Value} {k : Shape} {w : Bytes}
    (h : (v.encode k).toExcept = .ok w) : v.kind = k.kind := by
  by_cases hk : v.kind = k.kind
  · exact hk
  · rw [encode_of_kind_ne hk] at h
    exact (Emission.fail_eq_ok.1 h).elim

/-- A derivation of what was written: the reader takes no liberty with it, and its lists are those
of the value. -/
structure Written {k : Shape} {w : Bytes} {v : Value} (d : Derivation k w v) : Prop where
  silent : d.events = []
  heads_eq : ∀ after, d.heads after = v.heads k after

structure WrittenAll {ks : List Shape} {w : Bytes} {vs : List Value} (ds : Derivations ks w vs) :
    Prop where
  silent : ds.events = []
  heads_eq : ∀ after, ds.heads after = headsAll vs ks after

/-- What is written under the shape is a derivation. -/
def Writable (k : Shape) : Prop :=
  ∀ {v : Value} {w : Bytes}, (v.encode k).toExcept = .ok w → ∃ d : Derivation k w v, Written d

theorem exists_derivations {ks : List Shape} (hks : ∀ k ∈ ks, Writable k) {vs : List Value}
    (hlen : vs.length = ks.length) {w : Bytes} (h : (encodeAll vs ks).toExcept = .ok w) :
    ∃ ds : Derivations ks w vs, WrittenAll ds := by
  induction ks generalizing vs w with
  | nil =>
    obtain rfl := List.length_eq_zero_iff.1 hlen
    obtain rfl := Emission.done_eq_ok.1 h
    exact ⟨.nil, rfl, fun _ => rfl⟩
  | cons k ks ih =>
    obtain ⟨v, vs, rfl⟩ := List.exists_cons_of_length_eq_add_one hlen
    obtain ⟨w₁, w₂, hv, hvs, rfl⟩ := Emission.append_eq_ok.1 h
    have hks' : ∀ k ∈ ks, Writable k := fun k hk => hks k (List.mem_cons_of_mem _ hk)
    obtain ⟨d, hd⟩ := hks k List.mem_cons_self hv
    obtain ⟨ds, hds⟩ := ih hks' (Nat.succ.inj hlen) hvs
    refine ⟨.cons d ds, ?_, fun after => ?_⟩
    · rw [Derivations.events, hd.silent, hds.silent, List.append_nil]
    · have hbytes : (encodeAll vs ks).bytes = w₂ := (Emission.toExcept_eq_ok.1 hvs).2
      rw [Derivations.heads, hd.heads_eq, hds.heads_eq, headsAll, hbytes]

theorem exists_derivation_string {bytes : Bytes} {s : String}
    (hlen : bytes.length < BigEndian.capacity 4) (hs : Utf8.decodeLossy bytes = s) :
    ∃ d : Derivation .string (BigEndian.encode 4 bytes.length ++ bytes) (.string s),
      d.events = Event.ofText bytes ∧ ∀ after, d.heads after = [] := by
  subst hs
  exact ⟨.string bytes hlen, rfl, fun _ => rfl⟩

theorem exists_derivation (k : Shape) : Writable k := by
  induction k using Shape.induction with
  | u8 =>
    intro v w h
    -- Of all values only those of the shape's kind are left: the others are not written.
    cases v <;> cases kind_eq_of_encode h
    obtain rfl := Emission.write_eq_ok.1 h
    exact ⟨.u8 _, rfl, fun _ => rfl⟩
  | u16 =>
    intro v w h
    cases v <;> cases kind_eq_of_encode h
    obtain rfl := Emission.write_eq_ok.1 h
    exact ⟨.u16 _, rfl, fun _ => rfl⟩
  | u32 =>
    intro v w h
    cases v <;> cases kind_eq_of_encode h
    obtain rfl := Emission.write_eq_ok.1 h
    exact ⟨.u32 _, rfl, fun _ => rfl⟩
  | u64 =>
    intro v w h
    cases v <;> cases kind_eq_of_encode h
    obtain rfl := Emission.write_eq_ok.1 h
    exact ⟨.u64 _, rfl, fun _ => rfl⟩
  | bool =>
    intro v w h
    cases v <;> cases kind_eq_of_encode h
    rename_i b
    obtain rfl := Emission.write_eq_ok.1 h
    cases b with
    | false => exact ⟨.bool 0, rfl, fun _ => rfl⟩
    | true => exact ⟨.bool 1, rfl, fun _ => rfl⟩
  | fixedBytes size =>
    intro v w h
    cases v <;> cases kind_eq_of_encode h
    rename_i bytes
    rw [encode] at h
    split at h
    · rename_i hsize
      subst hsize
      obtain rfl := Emission.write_eq_ok.1 h
      exact ⟨.fixedBytes _, rfl, fun _ => rfl⟩
    · exact (Emission.fail_eq_ok.1 h).elim
  | string =>
    intro v w h
    cases v <;> cases kind_eq_of_encode h
    rename_i s
    obtain ⟨hlen, rfl⟩ := Emission.text_eq_ok.1 h
    obtain ⟨d, hevents, hheads⟩ := exists_derivation_string hlen (Utf8.decodeLossy_encode s)
    refine ⟨d, ?_, hheads⟩
    rw [hevents, Event.ofText, Utf8.defect?_encode]
    rfl
  | list element ih =>
    intro v w h
    cases v <;> cases kind_eq_of_encode h
    rename_i items
    rw [encode, encodeItems_eq] at h
    obtain ⟨w₁, w₂, hcount, hitems, rfl⟩ := Emission.append_eq_ok.1 h
    obtain ⟨hlen, rfl⟩ := Emission.length_eq_ok.1 hcount
    have hks : ∀ k ∈ List.replicate items.length element, Writable k :=
      fun k hk => List.eq_of_mem_replicate hk ▸ ih
    obtain ⟨ds, hds⟩ := exists_derivations hks (List.length_replicate).symm hitems
    refine ⟨.list hlen ds, hds.silent, fun after => ?_⟩
    have hbytes : (encodeItems items element).bytes = w₂ := by
      rw [encodeItems_eq]
      exact (Emission.toExcept_eq_ok.1 hitems).2
    rw [Derivation.heads, heads, hds.heads_eq, hbytes]
  | optional inner ih =>
    intro v w h
    cases v <;> cases kind_eq_of_encode h
    rename_i v?
    cases v? with
    | none =>
      obtain rfl := Emission.write_eq_ok.1 h
      exact ⟨.absent, rfl, fun _ => rfl⟩
    | some v =>
      rw [encode] at h
      obtain ⟨w₁, w₂, hflag, hv, rfl⟩ := Emission.append_eq_ok.1 h
      obtain rfl := Emission.write_eq_ok.1 hflag
      obtain ⟨d, hd⟩ := ih hv
      have hbyte : (1 : UInt8) ≠ 0 := by decide
      refine ⟨.present 1 hbyte d, ?_, hd.heads_eq⟩
      rw [Derivation.events, hd.silent]
      rfl
  | record name fields ih =>
    intro v w h
    cases v <;> cases kind_eq_of_encode h
    rename_i values
    rw [encode] at h
    split at h
    · rename_i hlen
      rw [encodeFields_eq] at h
      obtain ⟨ds, hds⟩ := exists_derivations ih (by rw [hlen, List.length_map]) h
      exact ⟨.record ds, hds.silent, hds.heads_eq⟩
    · exact (Emission.fail_eq_ok.1 h).elim

/-- What `heads` says of a list is so in the buffer: its count stands there, with `room` bytes
behind it. -/
theorem exists_place {k : Shape} {v : Value} {e : Bytes} (h : (v.encode k).toExcept = .ok e)
    (rest : Bytes) {l : ListHead} (hl : l ∈ v.heads k rest.length) : ∃ before behind,
      e ++ rest = before ++ (BigEndian.encode 4 l.count ++ behind) ∧ behind.length = l.room := by
  obtain ⟨d, hd⟩ := exists_derivation k h
  rw [← hd.heads_eq] at hl
  exact d.exists_place rest hl

/-! ## Reading what was written -/

/-- A written value is read back, silently and up to its last byte, just if its lists are covered.
Otherwise the first list that is not covered is what the reading fails at. -/
theorem run_decode_iff_covered (k : Shape) (v : Value) (e rest : Bytes)
    (h : (v.encode k).toExcept = .ok e) :
    let reading := (Cursor.ofBytes (e ++ rest)).run k.decode
    let readBack := reading = (⟨.ok v, []⟩, ⟨e ++ rest, e.length⟩)
    let lists := v.heads k rest.length
    (readBack ↔ ∀ l ∈ lists, l.count ≤ l.room) ∧
    (¬ (∀ l ∈ lists, l.count ≤ l.room) → ∃ l, ListHead.firstUncovered? lists = some l ∧
      reading.1.result = .error (.insufficientBytes l.count l.room)) ∧
    (∀ l ∈ lists, 1 ≤ l.element.minSize → l.count ≤ l.room) ∧
    ((∀ element ∈ k.elements, 1 ≤ element.minSize) → readBack) := by
  intro reading readBack lists
  -- Everything is known of derivations; this one has the lists of `v` and reports nothing.
  obtain ⟨d, hd⟩ := exists_derivation k h
  have hlists : lists = d.heads rest.length := (hd.heads_eq rest.length).symm
  have hread : (∀ l ∈ lists, l.count ≤ l.room) → readBack := by
    intro hc
    have hdecode := d.decode_append rest (by rwa [hlists] at hc)
    rw [hd.silent] at hdecode
    exact Cursor.run_ofBytes_append hdecode
  have hfail : ¬ (∀ l ∈ lists, l.count ≤ l.room) → ∃ l, ListHead.firstUncovered? lists = some l ∧
      reading.1.result = .error (.insufficientBytes l.count l.room) := by
    intro hc
    obtain ⟨l, hl⟩ := Option.ne_none_iff_exists'.1 (mt ListHead.firstUncovered?_eq_none_iff.1 hc)
    exact ⟨l, hl, d.decode_uncovered rest (by rwa [hlists] at hl)⟩
  have hsized : ∀ l ∈ lists, 1 ≤ l.element.minSize → l.count ≤ l.room := by
    intro l hl hsize
    rw [hlists] at hl
    exact d.covered_of_mem_heads hl hsize
  refine ⟨⟨fun hback => ?_, hread⟩, hfail, hsized, fun hk => hread fun l hl => ?_⟩
  · by_cases hc : ∀ l ∈ lists, l.count ≤ l.room
    · exact hc
    · obtain ⟨l, -, herr⟩ := hfail hc
      rw [hback] at herr
      cases herr
  · rw [hlists] at hl
    exact d.covered_of_mem_heads hl (hk _ (d.element_mem hl))

/-- Seven empty elements in front of the six bytes of a text are one too many. -/
theorem run_decode_iff_covered_text_after_empty_elements :
    let k : Shape := .record "Run" [⟨"marks", 0, .list (.fixedBytes 0)⟩, ⟨"text", 1, .string⟩]
    let v : Value := .record [.list (List.replicate 7 (.fixedBytes [])), .string "é"]
    let e : Bytes := [0, 0, 0, 7, 0, 0, 0, 2, 0xc3, 0xa9]
    (v.encode k).toExcept = .ok e ∧
    ((Cursor.ofBytes (e ++ [])).run k.decode).1.result = .error (.insufficientBytes 7 6) ∧
    (Cursor.ofBytes (e ++ [0])).run k.decode = (⟨.ok v, []⟩, ⟨e ++ [0], e.length⟩) := by
  intro k v e
  have hwritten : (v.encode k).toExcept = .ok e :=
    Emission.toExcept_eq_ok.2 ⟨by decide, by decide⟩
  obtain ⟨-, hfail, -⟩ := run_decode_iff_covered k v e [] hwritten
  obtain ⟨hread, -⟩ := run_decode_iff_covered k v e [0] hwritten
  have hshort : ¬ ∀ l ∈ v.heads k 0, l.count ≤ l.room := by decide
  have hlong : ∀ l ∈ v.heads k 1, l.count ≤ l.room := by decide
  obtain ⟨l, hl, herr⟩ := hfail hshort
  have hfirst : ListHead.firstUncovered? (v.heads k 0) = some ⟨.fixedBytes 0, 7, 6⟩ := by decide
  refine ⟨hwritten, ?_, hread.2 hlong⟩
  obtain rfl := Option.some.inj (hl.symm.trans hfirst)
  exact herr

end Value

end PeerWire
