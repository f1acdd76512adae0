import PeerWire.Proofs.Repair
import PeerWire.Proofs.RoundTrip

/-!
# Canonical bytes

What is read and written again comes out in canonical form: flags are 0 or 1 and texts are UTF-8.
The canonical form of the bytes of a derivation is never shorter than they are, so its lists are
covered where theirs were, and it differs from them just if the reader had something to report
(`Derivation.Canonical`). A value has no canonical form only if repair made one of its texts too
long for a 32-bit length. Main statement: `Shape.run_decode_encode`.
-/

namespace PeerWire

theorem Event.eq_of_ofFlag_eq_nil {byte : UInt8} (h : ofFlag byte = []) :
    (if byte != 0 then 1 else 0) = byte := by
  unfold ofFlag at h
  split at h
  · cases h
  · rename_i hle
    by_cases hzero : byte = 0
    · subst hzero
      rfl
    · have hone : byte = 1 := by
        rw [← UInt8.toNat_inj] at hzero ⊢
        rw [gt_iff_lt, UInt8.lt_iff_toNat_lt] at hle
        simp only [UInt8.toNat_ofNat] at hzero hle ⊢
        omega
      subst hone
      rfl

theorem Event.encode_decodeLossy_of_ofText_eq_nil {bytes : Bytes} (h : ofText bytes = []) :
    Utf8.encode (Utf8.decodeLossy bytes) = bytes := by
  apply Utf8.defect?_eq_none_iff.1
  unfold ofText at h
  cases hd : Utf8.defect? bytes with
  | none => rfl
  | some defect =>
    rw [hd] at h
    cases h

/-! ## Texts -/

namespace Value

mutual
/-- The texts inside a value, in wire order. -/
def texts : Value → List String
  | string text => [text]
  | list items => textsAll items
  | optional (some v) => v.texts
  | record values => textsAll values
  | _ => []
def textsAll : List Value → List String
  | [] => []
  | v :: vs => v.texts ++ textsAll vs
end

end Value

/-- A text is what repair makes of some bytes that stand in `w` behind their length, and the reader
reports it if they need repair. -/
structure ReadFrom (w : Bytes) (es : List Event) (text : String) (raw : Bytes) : Prop where
  length_lt : raw.length < BigEndian.capacity 4
  spelled : (BigEndian.encode 4 raw.length ++ raw) <:+: w
  events_subset : Event.ofText raw ⊆ es
  text_eq : text = Utf8.decodeLossy raw

theorem ReadFrom.mono {w w' : Bytes} {es es' : List Event} {text : String} {raw : Bytes}
    (h : ReadFrom w es text raw) (hw : w <:+: w') (hes : es ⊆ es') : ReadFrom w' es' text raw :=
  ⟨h.length_lt, h.spelled.trans hw, List.Subset.trans h.events_subset hes, h.text_eq⟩

mutual
theorem Derivation.exists_readFrom {k : Shape} {w : Bytes} {v : Value} {text : String} :
    (d : Derivation k w v) → text ∈ v.texts → ∃ raw, ReadFrom w d.events text raw
  | .string bytes hlen, hmem =>
    ⟨bytes, hlen, List.infix_rfl, List.Subset.refl _, List.mem_singleton.1 hmem⟩
  | .list _ ds, hmem => by
    obtain ⟨raw, hraw⟩ := ds.exists_readFrom hmem
    exact ⟨raw, hraw.mono (List.suffix_append _ _).isInfix (List.Subset.refl _)⟩
  | .present byte _ d, hmem => by
    obtain ⟨raw, hraw⟩ := d.exists_readFrom hmem
    exact ⟨raw, hraw.mono (List.suffix_cons _ _).isInfix (List.subset_append_right _ _)⟩
  | .record ds, hmem => ds.exists_readFrom hmem
  | .u8 _, hmem | .u16 _, hmem | .u32 _, hmem | .u64 _, hmem | .bool _, hmem
  | .fixedBytes _, hmem | .absent, hmem => by cases hmem
theorem Derivations.exists_readFrom {ks : List Shape} {w : Bytes} {vs : List Value}
    {text : String} :
    (ds : Derivations ks w vs) → text ∈ Value.textsAll vs → ∃ raw, ReadFrom w ds.events text raw
  | .nil, hmem => by cases hmem
  | .cons d ds, hmem => by
    rcases List.mem_append.1 hmem with hmem | hmem
    · obtain ⟨raw, hraw⟩ := d.exists_readFrom hmem
      exact ⟨raw, hraw.mono (List.prefix_append _ _).isInfix (List.subset_append_left _ _)⟩
    · obtain ⟨raw, hraw⟩ := ds.exists_readFrom hmem
      exact ⟨raw, hraw.mono (List.suffix_append _ _).isInfix (List.subset_append_right _ _)⟩
end

/-- The texts of a value that can be written have lengths that fit. -/
theorem Value.length_lt_of_encode {v : Value} {k : Shape} {e : Bytes}
    (h : (v.encode k).toExcept = .ok e) {text : String} (htext : text ∈ v.texts) :
    (Utf8.encode text).length < BigEndian.capacity 4 := by
  obtain ⟨d, hd⟩ := exists_derivation k h
  obtain ⟨raw, hlen, -, hevents, rfl⟩ := d.exists_readFrom htext
  rw [hd.silent, List.subset_nil] at hevents
  rwa [Event.encode_decodeLossy_of_ofText_eq_nil hevents]

/-! ## The canonical form of a derivation -/

/-- The value of the derivation is written as `e`. -/
structure Derivation.Canonical {k : Shape} {w : Bytes} {v : Value} (d : Derivation k w v)
    (e : Bytes) : Prop where
  encode_eq : (v.encode k).toExcept = .ok e
  length_le : w.length ≤ e.length
  covered {after after' : Nat} (hle : after ≤ after') (h : ∀ l ∈ d.heads after, l.Covered) :
    ∀ l ∈ v.heads k after', l.Covered
  eq_of_silent (h : d.events = []) : e = w

structure Derivations.Canonical {ks : List Shape} {w : Bytes} {vs : List Value}
    (ds : Derivations ks w vs) (e : Bytes) : Prop where
  encode_eq : (Value.encodeAll vs ks).toExcept = .ok e
  length_le : w.length ≤ e.length
  covered {after after' : Nat} (hle : after ≤ after') (h : ∀ l ∈ ds.heads after, l.Covered) :
    ∀ l ∈ Value.headsAll vs ks after', l.Covered
  eq_of_silent (h : ds.events = []) : e = w

/-- Bytes that are written as they were read, with no lists in them. -/
theorem Derivation.canonical_self {k : Shape} {w : Bytes} {v : Value} {d : Derivation k w v}
    (h : (v.encode k).toExcept = .ok w) (hheads : ∀ after, v.heads k after = []) :
    d.Canonical w where
  encode_eq := h
  length_le := Nat.le_refl _
  covered {after after'} _ _ l hl := by
    rw [hheads] at hl
    cases hl
  eq_of_silent _ := rfl

theorem Derivations.Canonical.cons {k : Shape} {ks : List Shape} {w ws e es : Bytes} {v : Value}
    {vs : List Value} {d : Derivation k w v} {ds : Derivations ks ws vs} (hd : d.Canonical e)
    (hds : ds.Canonical es) : (Derivations.cons d ds).Canonical (e ++ es) where
  encode_eq := Emission.append_eq_ok.2 ⟨e, es, hd.encode_eq, hds.encode_eq, rfl⟩
  length_le := by
    rw [List.length_append, List.length_append]
    exact Nat.add_le_add hd.length_le hds.length_le
  covered {after after'} hle h l hl := by
    have hbytes : (Value.encodeAll vs ks).bytes = es := (Emission.toExcept_eq_ok.1 hds.encode_eq).2
    rw [Value.headsAll, hbytes] at hl
    rcases List.mem_append.1 hl with hl | hl
    · have hle' : ws.length + after ≤ es.length + after' := Nat.add_le_add hds.length_le hle
      exact hd.covered hle' (fun l hl => h l (List.mem_append_left _ hl)) l hl
    · exact hds.covered hle (fun l hl => h l (List.mem_append_right _ hl)) l hl
  eq_of_silent h := by
    obtain ⟨hevents, hevents'⟩ := List.append_eq_nil_iff.1 h
    rw [hd.eq_of_silent hevents, hds.eq_of_silent hevents']

theorem Derivations.Canonical.list {element : Shape} {w e : Bytes} {vs : List Value}
    {ds : Derivations (List.replicate vs.length element) w vs} (hds : ds.Canonical e)
    (hlen : vs.length < BigEndian.capacity 4) :
    (Derivation.list hlen ds).Canonical (BigEndian.encode 4 vs.length ++ e) where
  encode_eq := by
    rw [Value.encode, Value.encodeItems_eq]
    exact Emission.append_eq_ok.2 ⟨_, e, Emission.length_eq_ok.2 ⟨hlen, rfl⟩, hds.encode_eq, rfl⟩
  length_le := by
    rw [List.length_append, List.length_append]
    exact Nat.add_le_add_left hds.length_le _
  covered {after after'} hle h l hl := by
    have hbytes : (Value.encodeItems vs element).bytes = e := by
      rw [Value.encodeItems_eq]
      exact (Emission.toExcept_eq_ok.1 hds.encode_eq).2
    rw [Value.heads, hbytes] at hl
    rcases List.mem_cons.1 hl with rfl | hl
    · -- The list has at least as much room as it had before.
      have hcovered : vs.length ≤ w.length + after := h _ List.mem_cons_self
      exact Nat.le_trans hcovered (Nat.add_le_add hds.length_le hle)
    · exact hds.covered hle (fun l hl => h l (List.mem_cons_of_mem _ hl)) l hl
  eq_of_silent h := by rw [hds.eq_of_silent h]

theorem Derivation.Canonical.present {inner : Shape} {w e : Bytes} {v : Value}
    {d : Derivation inner w v} (hd : d.Canonical e) {byte : UInt8} (hbyte : byte ≠ 0) :
    (Derivation.present byte hbyte d).Canonical (1 :: e) where
  encode_eq := Emission.append_eq_ok.2 ⟨[1], e, Emission.write_eq_ok.2 rfl, hd.encode_eq, rfl⟩
  length_le := Nat.succ_le_succ hd.length_le
  covered hle h := hd.covered hle h
  eq_of_silent h := by
    obtain ⟨hflag, hevents⟩ := List.append_eq_nil_iff.1 h
    have hone := Event.eq_of_ofFlag_eq_nil hflag
    rw [if_pos (by simpa using hbyte)] at hone
    rw [hd.eq_of_silent hevents, hone]

theorem Derivation.canonical_string {bytes : Bytes} (hlen : bytes.length < BigEndian.capacity 4)
    (htext : (Utf8.encode (Utf8.decodeLossy bytes)).length < BigEndian.capacity 4) :
    (Derivation.string bytes hlen).Canonical
      (BigEndian.encode 4 (Utf8.encode (Utf8.decodeLossy bytes)).length ++
        Utf8.encode (Utf8.decodeLossy bytes)) where
  encode_eq := Emission.text_eq_ok.2 ⟨htext, rfl⟩
  length_le := by
    rw [List.length_append, List.length_append, BigEndian.length_encode, BigEndian.length_encode]
    exact Nat.add_le_add_left (Utf8.length_le_encode_decodeLossy bytes) 4
  covered _ _ l hl := by cases hl
  eq_of_silent h := by rw [Event.encode_decodeLossy_of_ofText_eq_nil h]

theorem Derivation.canonical_bool (byte : UInt8) :
    (Derivation.bool byte).Canonical [if byte != 0 then 1 else 0] where
  encode_eq := Emission.write_eq_ok.2 rfl
  length_le := Nat.le_refl 1
  covered _ _ l hl := by cases hl
  eq_of_silent h := by rw [Event.eq_of_ofFlag_eq_nil h]

mutual
theorem Derivation.exists_canonical {k : Shape} {w : Bytes} {v : Value} : (d : Derivation k w v) →
    (∀ text ∈ v.texts, (Utf8.encode text).length < BigEndian.capacity 4) → ∃ e, d.Canonical e
  | .u8 _, _ | .u16 _, _ | .u32 _, _ | .u64 _, _ | .absent, _ =>
    ⟨_, Derivation.canonical_self (Emission.write_eq_ok.2 rfl) fun _ => rfl⟩
  | .bool byte, _ => ⟨_, Derivation.canonical_bool byte⟩
  | .fixedBytes bytes, _ => by
    refine ⟨_, Derivation.canonical_self ?_ fun _ => rfl⟩
    rw [Value.encode, if_pos rfl]
    exact Emission.write_eq_ok.2 rfl
  | .string bytes hlen, htexts =>
    ⟨_, Derivation.canonical_string hlen (htexts _ List.mem_cons_self)⟩
  | .list hlen ds, htexts => by
    obtain ⟨e, he⟩ := ds.exists_canonical htexts
    exact ⟨_, he.list hlen⟩
  | .present byte hbyte d, htexts => by
    obtain ⟨e, he⟩ := d.exists_canonical htexts
    exact ⟨_, he.present hbyte⟩
  | .record ds, htexts => by
    obtain ⟨e, he⟩ := ds.exists_canonical htexts
    refine ⟨e, ?_, he.length_le, he.covered, he.eq_of_silent⟩
    have hlen := ds.length_eq
    rw [List.length_map] at hlen
    rw [Value.encode, if_pos hlen, Value.encodeFields_eq]
    exact he.encode_eq
theorem Derivations.exists_canonical {ks : List Shape} {w : Bytes} {vs : List Value} :
    (ds : Derivations ks w vs) →
    (∀ text ∈ Value.textsAll vs, (Utf8.encode text).length < BigEndian.capacity 4) →
      ∃ e, ds.Canonical e
  | .nil, _ => by
    refine ⟨[], Emission.done_eq_ok.2 rfl, Nat.le_refl 0, ?_, fun _ => rfl⟩
    intro after after' _ _ l hl
    cases hl
  | .cons d ds, htexts => by
    obtain ⟨e, he⟩ := d.exists_canonical fun text h => htexts text (List.mem_append_left _ h)
    obtain ⟨es, hes⟩ := ds.exists_canonical fun text h => htexts text (List.mem_append_right _ h)
    exact ⟨e ++ es, Derivations.Canonical.cons he hes⟩
end

/-! ## Reading and writing again -/

/-- A value that was read can be written unless repair made one of its texts too long. The bytes
that it is written as are no fewer than those it was read from, they are read as the same value,
silently and with the same rest, and they are the same bytes just if the first reading was silent
too. -/
theorem Shape.run_decode_encode (k : Shape) (buffer : Bytes) (v : Value) (c : Nat) (es : List Event)
    (h : (Cursor.ofBytes buffer).run k.decode = (⟨.ok v, es⟩, ⟨buffer, c⟩)) :
    let rest := buffer.drop c
    ((∃ e, (v.encode k).toExcept = .ok e) ↔
      ∀ text ∈ v.texts, (Utf8.encode text).length < BigEndian.capacity 4) ∧
    (∀ text ∈ v.texts, ∃ raw : Bytes,
      (BigEndian.encode 4 raw.length ++ raw) <:+: buffer.take c ∧
        raw.length < BigEndian.capacity 4 ∧ text = Utf8.decodeLossy raw) ∧
    ∀ e, (v.encode k).toExcept = .ok e →
      c ≤ e.length ∧
      (Cursor.ofBytes (e ++ rest)).run k.decode = (⟨.ok v, []⟩, ⟨e ++ rest, e.length⟩) ∧
      (e = buffer.take c ↔ es = []) := by
  intro rest
  obtain ⟨hc, d, -, rfl, hcovered⟩ := exists_derivation_of_run h
  refine ⟨⟨?_, fun htexts => ?_⟩, fun text htext => ?_, fun e he => ?_⟩
  · rintro ⟨e, he⟩ text htext
    exact Value.length_lt_of_encode he htext
  · obtain ⟨e, he⟩ := d.exists_canonical htexts
    exact ⟨e, he.encode_eq⟩
  · obtain ⟨raw, hraw⟩ := d.exists_readFrom htext
    exact ⟨raw, hraw.spelled, hraw.length_lt, hraw.text_eq⟩
  · obtain ⟨e', he'⟩ := d.exists_canonical fun text htext => Value.length_lt_of_encode he htext
    obtain rfl : e' = e := Except.ok.inj (he'.encode_eq.symm.trans he)
    obtain ⟨d', hd'⟩ := Value.exists_derivation k he
    -- The lists are those that were read, and no bytes have gone from behind their counts.
    have hlists : ∀ l ∈ d'.heads rest.length, l.Covered := by
      rw [hd'.heads_eq]
      exact he'.covered (Nat.le_refl _) hcovered
    have hread := d'.decode_append rest hlists
    rw [hd'.silent] at hread
    have hback := Cursor.run_ofBytes_append hread
    refine ⟨?_, hback, fun heq => ?_, he'.eq_of_silent⟩
    · have hle := he'.length_le
      rwa [List.length_take_of_le hc] at hle
    · rw [heq, List.take_append_drop, h] at hback
      exact congrArg (fun run => run.1.events) hback

/-- Two loose flags and a text in need of repair, behind them as many bytes as there are marks. -/
theorem Shape.run_decode_encode_loose_flags_and_broken_text :
    let k : Shape := .record "Note" [⟨"open", 0, .optional .bool⟩,
      ⟨"marks", 1, .list (.fixedBytes 0)⟩, ⟨"text", 2, .string⟩]
    let v : Value := .record [.optional (some (.bool true)),
      .list (List.replicate 7 (.fixedBytes [])), .string "\uFFFD("]
    let buffer : Bytes := [7, 5, 0, 0, 0, 7, 0, 0, 0, 2, 0xc3, 0x28, 0xff]
    let e : Bytes := [1, 1, 0, 0, 0, 7, 0, 0, 0, 4, 0xef, 0xbf, 0xbd, 0x28]
    (Cursor.ofBytes buffer).run k.decode =
      (⟨.ok v, [.looseFlag 7, .looseFlag 5, .repairedText ⟨0, some 1⟩]⟩, ⟨buffer, 12⟩) ∧
    (v.encode k).toExcept = .ok e ∧
    (Cursor.ofBytes (e ++ [0xff])).run k.decode = (⟨.ok v, []⟩, ⟨e ++ [0xff], 14⟩) ∧
    e ≠ buffer.take 12 := by
  intro k v buffer e
  have hrun : (Cursor.ofBytes buffer).run k.decode =
    (⟨.ok v, [.looseFlag 7, .looseFlag 5, .repairedText ⟨0, some 1⟩]⟩, ⟨buffer, 12⟩) := by
    decide +kernel
  have hwritten : (v.encode k).toExcept = .ok e :=
    Emission.toExcept_eq_ok.2 ⟨by decide, by decide⟩
  obtain ⟨-, -, hcanonical⟩ := run_decode_encode k buffer v 12 _ hrun
  obtain ⟨-, hback, hsame⟩ := hcanonical e hwritten
  refine ⟨hrun, hwritten, hback, fun heq => ?_⟩
  have hsilent := hsame.1 heq
  cases hsilent

end PeerWire
