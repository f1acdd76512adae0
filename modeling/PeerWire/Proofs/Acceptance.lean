import PeerWire.Cursor
import PeerWire.Proofs.Grammar
import PeerWire.Value.Codec

/-!
# What the decoder accepts

The decoder of a shape against the wire grammar. It reads the bytes of a derivation off the front of
its input if every list is covered (`Derivation.decode_append`), it fails at the first list that is
not (`Derivation.decode_uncovered`), and whatever it reads has a derivation
(`Shape.exists_derivation`). Main statement: the accepted inputs are those that start with a
derivation whose lists are covered by the buffer (`Shape.run_decode_accepts_iff`).
-/

namespace PeerWire

namespace Cursor

theorem run_ofBytes {α : Type} (r : Reader α) (buffer : Bytes) :
    (ofBytes buffer).run r = (⟨(r buffer).result, (r buffer).events⟩,
      ⟨buffer, buffer.length - (r buffer).rest.length⟩) := by
  simp [run, ofBytes, rest, remaining]

theorem run_ofBytes_append {α : Type} {r : Reader α} {w rest : Bytes} {a : α} {es : List Event}
    (h : r (w ++ rest) = ⟨.ok a, rest, es⟩) :
    (ofBytes (w ++ rest)).run r = (⟨.ok a, es⟩, ⟨w ++ rest, w.length⟩) := by
  rw [run_ofBytes, h, List.length_append, Nat.add_sub_cancel]

end Cursor

namespace Shape

/-! ## Sequences of values -/

theorem decodeFields_eq (fields : List Field) :
    decodeFields fields = (fields.map FieldOf.shape).mapM decode := by
  induction fields with
  | nil => simp [decodeFields]
  | cons f fields ih => simp [decodeFields, ih]

theorem times_decode (s : Shape) (count : Nat) :
    Reader.times s.decode count = (List.replicate count s).mapM decode := by
  induction count with
  | zero => simp [Reader.times]
  | succ count ih => simp [Reader.times, List.replicate_succ, ih]

theorem decode_list_append (element : Shape) {count : Nat} (h : count < BigEndian.capacity 4)
    (input : Bytes) :
    Reader.list element element.decode (BigEndian.encode 4 count ++ input) =
      if count > input.length then ⟨.error (.insufficientBytes count input.length), input, []⟩
      else (List.replicate count element).mapM decode input := by
  rw [Reader.list_append element element.decode h, times_decode]

end Shape

/-! ## Reading a derivation -/

mutual
theorem Derivation.decode_append {k : Shape} {w : Bytes} {v : Value} (rest : Bytes) :
    (d : Derivation k w v) → (∀ h ∈ d.heads rest.length, h.Covered) →
      k.decode (w ++ rest) = ⟨.ok v, rest, d.events⟩
  | .u8 n, _ => by
    rw [Shape.decode, bind_pure_comp]
    exact Reader.map_of_ok _ (Reader.u8_eq_ok.2 ⟨rfl, rfl⟩)
  | .u16 n, _ => by
    rw [Shape.decode, bind_pure_comp]
    exact Reader.map_of_ok _ (Reader.u16_eq_ok.2 ⟨rfl, rfl⟩)
  | .u32 n, _ => by
    rw [Shape.decode, bind_pure_comp]
    exact Reader.map_of_ok _ (Reader.u32_eq_ok.2 ⟨rfl, rfl⟩)
  | .u64 n, _ => by
    rw [Shape.decode, bind_pure_comp]
    exact Reader.map_of_ok _ (Reader.u64_eq_ok.2 ⟨rfl, rfl⟩)
  | .bool byte, _ => by
    rw [Shape.decode, bind_pure_comp]
    exact Reader.map_of_ok _ (Reader.flag_cons byte rest)
  | .fixedBytes bytes, _ => by
    rw [Shape.decode, bind_pure_comp]
    exact Reader.map_of_ok _ (Reader.take_append bytes rest)
  | .string bytes hlen, _ => by
    rw [Shape.decode, bind_pure_comp, List.append_assoc]
    exact Reader.map_of_ok _ (Reader.text_append hlen rest)
  | @Derivation.list element w vs hlen ds, hc => by
    have hhead := hc _ List.mem_cons_self
    have htail := ds.mapM_decode_append rest fun h hmem => hc h (List.mem_cons_of_mem _ hmem)
    rw [Shape.decode, bind_pure_comp, List.append_assoc]
    refine Reader.map_of_ok _ ?_
    rw [Shape.decode_list_append element hlen, if_neg, htail]
    · rfl
    · rw [List.length_append]
      exact Nat.not_lt.2 hhead
  | .absent, _ => by
    rw [Shape.decode]
    exact Reader.bind_of_ok (Reader.flag_cons 0 rest)
  | @Derivation.present inner w v byte hbyte d, hc => by
    have hflag := Reader.flag_cons_of_ne hbyte (w ++ rest)
    rw [Shape.decode, List.cons_append, Reader.bind_of_ok hflag, if_pos rfl,
      Reader.bind_of_ok (d.decode_append rest hc)]
    simp [Reader.pure_apply, Derivation.events]
  | .record ds, hc => by
    rw [Shape.decode, bind_pure_comp, Shape.decodeFields_eq]
    exact Reader.map_of_ok _ (ds.mapM_decode_append rest hc)
theorem Derivations.mapM_decode_append {ks : List Shape} {w : Bytes} {vs : List Value}
    (rest : Bytes) :
    (ds : Derivations ks w vs) → (∀ h ∈ ds.heads rest.length, h.Covered) →
      ks.mapM Shape.decode (w ++ rest) = ⟨.ok vs, rest, ds.events⟩
  | .nil, _ => by
    rw [List.mapM_nil]
    rfl
  | @Derivations.cons k ks w ws v vs d ds, hc => by
    have hd := d.decode_append (ws ++ rest) fun h hmem => by
      rw [List.length_append] at hmem
      exact hc h (List.mem_append_left _ hmem)
    have hds := ds.mapM_decode_append rest fun h hmem => hc h (List.mem_append_right _ hmem)
    rw [List.mapM_cons, List.append_assoc, Reader.bind_of_ok hd, Reader.bind_of_ok hds]
    simp [Reader.pure_apply, Derivations.events]
end

mutual
theorem Derivation.decode_uncovered {k : Shape} {w : Bytes} {v : Value} (rest : Bytes)
    {h : ListHead} :
    (d : Derivation k w v) → ListHead.firstUncovered? (d.heads rest.length) = some h →
      (k.decode (w ++ rest)).result = .error (.insufficientBytes h.count h.room)
  | @Derivation.list element w vs hlen ds, hfirst => by
    rw [Derivation.heads, ListHead.firstUncovered?_cons] at hfirst
    rw [Shape.decode, bind_pure_comp, List.append_assoc]
    apply Reader.map_of_error
    rw [Shape.decode_list_append element hlen, List.length_append]
    split at hfirst
    · rename_i hc
      rw [if_neg (Nat.not_lt.2 hc)]
      exact ds.mapM_decode_uncovered rest hfirst
    · rename_i hc
      cases hfirst
      rw [if_pos (Nat.not_le.1 hc)]
  | @Derivation.present inner w v byte hbyte d, hfirst => by
    have hflag := Reader.flag_cons_of_ne hbyte (w ++ rest)
    rw [Shape.decode, List.cons_append, Reader.bind_of_ok hflag, if_pos rfl]
    exact Reader.bind_of_error (d.decode_uncovered rest hfirst)
  | .record ds, hfirst => by
    rw [Shape.decode, bind_pure_comp, Shape.decodeFields_eq]
    exact Reader.map_of_error (ds.mapM_decode_uncovered rest hfirst)
  | .u8 _, hfirst | .u16 _, hfirst | .u32 _, hfirst | .u64 _, hfirst | .bool _, hfirst
  | .fixedBytes _, hfirst | .string _ _, hfirst | .absent, hfirst => by cases hfirst
theorem Derivations.mapM_decode_uncovered {ks : List Shape} {w : Bytes} {vs : List Value}
    (rest : Bytes) {h : ListHead} :
    (ds : Derivations ks w vs) → ListHead.firstUncovered? (ds.heads rest.length) = some h →
      (ks.mapM Shape.decode (w ++ rest)).result = .error (.insufficientBytes h.count h.room)
  | .nil, hfirst => by cases hfirst
  | @Derivations.cons k ks w ws v vs d ds, hfirst => by
    rw [Derivations.heads, ListHead.firstUncovered?_append, ← List.length_append] at hfirst
    rw [List.mapM_cons, List.append_assoc]
    -- The list is inside the first value, or that value is read and the list comes after it.
    cases hd : ListHead.firstUncovered? (d.heads (ws ++ rest).length) with
    | some h' =>
      rw [hd] at hfirst
      cases hfirst
      exact Reader.bind_of_error (d.decode_uncovered (ws ++ rest) hd)
    | none =>
      rw [hd] at hfirst
      have hcovered := ListHead.firstUncovered?_eq_none_iff.1 hd
      rw [Reader.bind_of_ok (d.decode_append (ws ++ rest) hcovered)]
      exact Reader.bind_of_error (ds.mapM_decode_uncovered rest hfirst)
end

theorem Derivation.covered_of_decode {k : Shape} {w : Bytes} {v v' : Value}
    (d : Derivation k w v) {rest : Bytes} (h : (k.decode (w ++ rest)).result = .ok v') :
    ∀ l ∈ d.heads rest.length, l.Covered := by
  apply ListHead.firstUncovered?_eq_none_iff.1
  cases hfirst : ListHead.firstUncovered? (d.heads rest.length) with
  | none => rfl
  | some l =>
    rw [d.decode_uncovered rest hfirst] at h
    cases h

/-! ## Finding a derivation -/

/-- The derivation is what a reader takes off the front of an input. -/
structure Derivation.Reads {k : Shape} {w : Bytes} {v : Value} (d : Derivation k w v)
    (input rest : Bytes) (es : List Event) : Prop where
  input_eq : input = w ++ rest
  events_eq : es = d.events
  covered : ∀ h ∈ d.heads rest.length, h.Covered

structure Derivations.Reads {ks : List Shape} {w : Bytes} {vs : List Value}
    (ds : Derivations ks w vs) (input rest : Bytes) (es : List Event) : Prop where
  input_eq : input = w ++ rest
  events_eq : es = ds.events
  covered : ∀ h ∈ ds.heads rest.length, h.Covered

theorem Derivation.Reads.cons {k : Shape} {ks : List Shape} {w ws : Bytes} {v : Value}
    {vs : List Value} {d : Derivation k w v} {ds : Derivations ks ws vs} {input mid rest : Bytes}
    {es es' : List Event} (hd : d.Reads input mid es) (hds : ds.Reads mid rest es') :
    (Derivations.cons d ds).Reads input rest (es ++ es') := by
  obtain ⟨rfl, rfl, hc⟩ := hd
  obtain ⟨rfl, rfl, hc'⟩ := hds
  refine ⟨(List.append_assoc _ _ _).symm, rfl, fun h hmem => ?_⟩
  rcases List.mem_append.1 hmem with hmem | hmem
  · exact hc h (by rwa [List.length_append])
  · exact hc' h hmem

/-- Every reading under the shape has a derivation. -/
def Shape.Derived (k : Shape) : Prop :=
  ∀ {input rest : Bytes} {v : Value} {es : List Event}, k.decode input = ⟨.ok v, rest, es⟩ →
    ∃ w, ∃ d : Derivation k w v, d.Reads input rest es

theorem Shape.exists_derivations {ks : List Shape} (hks : ∀ k ∈ ks, k.Derived)
    {input rest : Bytes} {vs : List Value} {es : List Event}
    (h : ks.mapM Shape.decode input = ⟨.ok vs, rest, es⟩) :
    ∃ w, ∃ ds : Derivations ks w vs, ds.Reads input rest es := by
  induction ks generalizing input vs es with
  | nil =>
    rw [List.mapM_nil] at h
    obtain ⟨rfl, rfl, rfl⟩ := Reader.pure_eq_ok.1 h
    exact ⟨[], .nil, rfl, rfl, fun h hmem => by cases hmem⟩
  | cons k ks ih =>
    rw [List.mapM_cons] at h
    obtain ⟨v, mid, es₁, es₂, hv, hmid, rfl⟩ := Reader.bind_eq_ok.1 h
    obtain ⟨vs', mid', es₃, es₄, hvs, hpure, rfl⟩ := Reader.bind_eq_ok.1 hmid
    obtain ⟨rfl, rfl, rfl⟩ := Reader.pure_eq_ok.1 hpure
    obtain ⟨w, d, hd⟩ := hks k List.mem_cons_self hv
    obtain ⟨ws, ds, hds⟩ := ih (fun k hk => hks k (List.mem_cons_of_mem _ hk)) hvs
    rw [List.append_nil]
    exact ⟨w ++ ws, .cons d ds, hd.cons hds⟩

/-- A shape whose reader is an elementary one, with no lists inside. -/
theorem Shape.derived_of_leaf {α : Type} {k : Shape} {r : Reader α} {value : α → Value}
    (hk : k.decode = value <$> r)
    (hr : ∀ {input rest : Bytes} {a : α} {es : List Event}, r input = ⟨.ok a, rest, es⟩ →
      ∃ w, ∃ d : Derivation k w (value a), input = w ++ rest ∧ es = d.events ∧
        ∀ after, d.heads after = []) : k.Derived := by
  intro input rest v es h
  rw [hk] at h
  obtain ⟨a, ha, rfl⟩ := Reader.map_eq_ok.1 h
  obtain ⟨w, d, hinput, hes, hheads⟩ := hr ha
  refine ⟨w, d, hinput, hes, fun h hmem => ?_⟩
  rw [hheads] at hmem
  cases hmem

theorem Shape.exists_derivation (k : Shape) : k.Derived := by
  induction k using Shape.induction with
  | u8 =>
    refine derived_of_leaf (bind_pure_comp _ _) fun h => ?_
    obtain ⟨hinput, hes⟩ := Reader.u8_eq_ok.1 h
    exact ⟨_, .u8 _, hinput, hes, fun _ => rfl⟩
  | u16 =>
    refine derived_of_leaf (bind_pure_comp _ _) fun h => ?_
    obtain ⟨hinput, hes⟩ := Reader.u16_eq_ok.1 h
    exact ⟨_, .u16 _, hinput, hes, fun _ => rfl⟩
  | u32 =>
    refine derived_of_leaf (bind_pure_comp _ _) fun h => ?_
    obtain ⟨hinput, hes⟩ := Reader.u32_eq_ok.1 h
    exact ⟨_, .u32 _, hinput, hes, fun _ => rfl⟩
  | u64 =>
    refine derived_of_leaf (bind_pure_comp _ _) fun h => ?_
    obtain ⟨hinput, hes⟩ := Reader.u64_eq_ok.1 h
    exact ⟨_, .u64 _, hinput, hes, fun _ => rfl⟩
  | bool =>
    refine derived_of_leaf (bind_pure_comp _ _) fun h => ?_
    obtain ⟨byte, hinput, rfl, hes⟩ := Reader.flag_eq_ok.1 h
    exact ⟨_, .bool byte, hinput, hes, fun _ => rfl⟩
  | fixedBytes size =>
    refine derived_of_leaf (bind_pure_comp _ _) fun h => ?_
    obtain ⟨rfl, hinput, hes⟩ := Reader.take_eq_ok.1 h
    exact ⟨_, .fixedBytes _, hinput, hes, fun _ => rfl⟩
  | string =>
    refine derived_of_leaf (bind_pure_comp _ _) fun h => ?_
    obtain ⟨bytes, hlen, hinput, rfl, hes⟩ := Reader.text_eq_ok.1 h
    refine ⟨_, .string bytes hlen, ?_, hes, fun _ => rfl⟩
    rw [hinput, List.append_assoc]
  | list element ih =>
    intro input rest v es h
    rw [decode, bind_pure_comp] at h
    obtain ⟨vs, hvs, rfl⟩ := Reader.map_eq_ok.1 h
    obtain ⟨mid, hlen, rfl, hle, htimes⟩ := Reader.list_eq_ok.1 hvs
    rw [times_decode] at htimes
    obtain ⟨w, ds, rfl, rfl, hc⟩ :=
      exists_derivations (fun k hk => List.eq_of_mem_replicate hk ▸ ih) htimes
    refine ⟨_, .list hlen ds, (List.append_assoc _ _ _).symm, rfl, fun h hmem => ?_⟩
    rcases List.mem_cons.1 hmem with rfl | hmem
    · rwa [List.length_append] at hle
    · exact hc h hmem
  | optional inner ih =>
    intro input rest v es h
    rw [decode] at h
    obtain ⟨b, mid, es₁, es₂, hflag, hmid, rfl⟩ := Reader.bind_eq_ok.1 h
    obtain ⟨byte, rfl, rfl, rfl⟩ := Reader.flag_eq_ok.1 hflag
    by_cases hbyte : byte = 0
    · subst hbyte
      obtain ⟨rfl, rfl, rfl⟩ := Reader.pure_eq_ok.1 hmid
      exact ⟨[0], .absent, rfl, rfl, by simp [Derivation.heads]⟩
    · have htrue : (byte != 0) = true := by simp [hbyte]
      rw [htrue, if_pos rfl, bind_pure_comp] at hmid
      obtain ⟨v, hv, rfl⟩ := Reader.map_eq_ok.1 hmid
      obtain ⟨w, d, rfl, rfl, hc⟩ := ih hv
      exact ⟨byte :: w, .present byte hbyte d, rfl, rfl, hc⟩
  | record name fields ih =>
    intro input rest v es h
    rw [decode, bind_pure_comp, decodeFields_eq] at h
    obtain ⟨vs, hvs, rfl⟩ := Reader.map_eq_ok.1 h
    obtain ⟨w, ds, rfl, rfl, hc⟩ := exists_derivations ih hvs
    exact ⟨w, .record ds, rfl, rfl, hc⟩

theorem Shape.decode_eq_ok {k : Shape} {input rest : Bytes} {v : Value} {es : List Event} :
    k.decode input = ⟨.ok v, rest, es⟩ ↔
      ∃ w, ∃ d : Derivation k w v, d.Reads input rest es := by
  constructor
  · exact fun h => k.exists_derivation h
  · rintro ⟨w, d, rfl, rfl, hc⟩
    exact d.decode_append rest hc

theorem Shape.exists_derivation_of_run {k : Shape} {buffer : Bytes} {v : Value} {c : Nat}
    {es : List Event} (h : (Cursor.ofBytes buffer).run k.decode = (⟨.ok v, es⟩, ⟨buffer, c⟩)) :
    c ≤ buffer.length ∧
      ∃ d : Derivation k (buffer.take c) v, d.Reads buffer (buffer.drop c) es := by
  rw [Cursor.run_ofBytes] at h
  rcases hread : k.decode buffer with ⟨result, rest, es'⟩
  rw [hread] at h
  cases h
  obtain ⟨w, d, hd⟩ := k.exists_derivation hread
  have hlen : buffer.length - rest.length = w.length := by
    rw [hd.input_eq, List.length_append]
    exact Nat.add_sub_cancel _ _
  have htake : buffer.take w.length = w := by rw [hd.input_eq, List.take_left]
  have hdrop : buffer.drop w.length = rest := by rw [hd.input_eq, List.drop_left]
  dsimp only
  rw [hlen, htake, hdrop]
  refine ⟨?_, d, hd⟩
  rw [hd.input_eq, List.length_append]
  exact Nat.le_add_right _ _

/-- A value is read and `c` bytes are taken just if the first `c` bytes of the buffer denote the
value and no list among them claims more elements than there are bytes behind its count. -/
theorem Shape.run_decode_accepts_iff (k : Shape) (buffer : Bytes) (v : Value) (c : Nat) :
    ((Cursor.ofBytes buffer).run k.decode).1.result = .ok v ∧
        ((Cursor.ofBytes buffer).run k.decode).2.position = c ↔
      c ≤ buffer.length ∧ ∃ d : Derivation k (buffer.take c) v,
        ∀ l ∈ d.heads (buffer.length - c), l.count ≤ l.room := by
  rw [Cursor.run_ofBytes]
  constructor
  · rintro ⟨hv, hc⟩
    have hread : k.decode buffer = ⟨.ok v, (k.decode buffer).rest, (k.decode buffer).events⟩ := by
      rw [← hv]
    obtain ⟨w, d, hbuffer, -, hcovered⟩ := k.exists_derivation hread
    generalize (k.decode buffer).rest = rest at *
    subst hbuffer
    have hlen : c = w.length := by
      rw [← hc, List.length_append]
      exact Nat.add_sub_cancel _ _
    subst hlen
    have hafter : (w ++ rest).length - w.length = rest.length := by
      rw [List.length_append]
      exact Nat.add_sub_cancel_left _ _
    rw [hafter, List.take_left]
    refine ⟨?_, d, hcovered⟩
    rw [List.length_append]
    exact Nat.le_add_right _ _
  · rintro ⟨hle, d, hcovered⟩
    have hread := d.decode_append (buffer.drop c) (by rwa [List.length_drop])
    rw [List.take_append_drop] at hread
    rw [hread, List.length_drop]
    exact ⟨rfl, Nat.sub_sub_self hle⟩

end PeerWire
