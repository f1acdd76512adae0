import PeerWire.Proofs.Conformance
import PeerWire.Proofs.Envelope
import PeerWire.Proofs.Prefixes
import PeerWire.Proofs.Restored

/-!
# Delivery of payloads

A payload travels inside the payload of an envelope. If its texts and lists are short enough for
their 32-bit lengths it can be written (`Ty.fits_image`), and what is written of it is parsed again
by the type of the message that carries it and by no other. A message that comes from anyone is
parsed just if its tag is right and its bytes are used up; it is the message that would have been
sent for the payload just if parsing had nothing to report. Main statement:
`Message.parse_ofPayload`.
-/

namespace PeerWire

/-! ## Lengths -/

namespace Value

mutual
/-- What the 32-bit lengths inside a value count, in wire order: the bytes of its texts and the
elements of its lists. -/
def lengths : Value → List Nat
  | string text => [(Utf8.encode text).length]
  | list items => items.length :: lengthsAll items
  | optional (some v) => v.lengths
  | record values => lengthsAll values
  | _ => []
def lengthsAll : List Value → List Nat
  | [] => []
  | v :: vs => v.lengths ++ lengthsAll vs
end

theorem mem_lengthsAll {n : Nat} {v : Value} {vs : List Value} (hv : v ∈ vs)
    (hn : n ∈ v.lengths) : n ∈ lengthsAll vs := by
  induction vs with
  | nil => cases hv
  | cons w vs ih =>
    rcases List.mem_cons.1 hv with rfl | hv
    · exact List.mem_append_left _ hn
    · exact List.mem_append_right _ (ih hv)

/-- All lengths inside the value fit in 32 bits. -/
def Short (v : Value) : Prop := ∀ n ∈ v.lengths, n < BigEndian.capacity 4

/-- All lengths inside the values fit in 32 bits. -/
def AllShort (vs : List Value) : Prop := ∀ n ∈ lengthsAll vs, n < BigEndian.capacity 4

instance (v : Value) : Decidable v.Short := inferInstanceAs (Decidable (∀ n ∈ v.lengths, _))

theorem AllShort.head {v : Value} {vs : List Value} (h : AllShort (v :: vs)) : v.Short :=
  fun n hn => h n (List.mem_append_left _ hn)

theorem AllShort.tail {v : Value} {vs : List Value} (h : AllShort (v :: vs)) : AllShort vs :=
  fun n hn => h n (List.mem_append_right _ hn)

end Value

mutual
/-- The image of a declared value is what its shape allows but for lengths. -/
theorem Ty.fits_image : (t : Ty) → (v : t.Val) → (t.image v).Short → (t.image v).Fits t.shape
  | .u8, n, _ => .u8 n
  | .u16, n, _ => .u16 n
  | .u32, n, _ => .u32 n
  | .u64, n, _ => .u64 n
  | .bool, b, _ => .bool b
  | .string, _, h => .string (h _ List.mem_cons_self)
  | .array n, ⟨bytes, hlen⟩, _ => by
    subst hlen
    exact .fixedBytes bytes
  | .list t, items, h => by
    have hitems : ∀ v ∈ items, (t.image v).Fits t.shape := fun v hv =>
      Ty.fits_image t v fun n hn =>
        h n (List.mem_cons_of_mem _ (Value.mem_lengthsAll (List.mem_map_of_mem hv) hn))
    exact .list (h _ List.mem_cons_self) (List.forall_mem_map.2 hitems)
  | .option _, none, _ => .absent
  | .option t, some v, h => .present (Ty.fits_image t v h)
  | .boxed t, v, h => Ty.fits_image t v.content h
  | .wrapper _ t, v, h => Ty.fits_image t v.inner h
  | .record .listing _ ms, row, h =>
    .record (Row.length_images 0 ms row) (Row.fits_images 0 ms row h)
  | .record .selection _ ms, row, h =>
    .record (Row.length_markedImages 0 0 ms row) (Row.fits_markedImages 0 0 ms row h)
theorem Row.fits_images (position : Nat) : (ms : List (Member Ty)) → (row : Row ms) →
    Value.AllShort (Row.images ms row) →
      ∀ p ∈ (Row.images ms row).zip ((listingFields position ms).map FieldOf.shape), p.1.Fits p.2
  | [], _, _, _, hp => by cases hp
  | ⟨_, t, _⟩ :: ms, (v, row), h, p, hp => by
    rcases List.mem_cons.1 hp with rfl | hp
    · exact Ty.fits_image t v h.head
    · exact Row.fits_images (position + 1) ms row h.tail p hp
theorem Row.fits_markedImages (index position : Nat) : (ms : List (Member Ty)) → (row : Row ms) →
    Value.AllShort (Row.markedImages ms row) →
      ∀ p ∈ (Row.markedImages ms row).zip ((selectionFields index position ms).map FieldOf.shape),
        p.1.Fits p.2
  | [], _, _, _, hp => by cases hp
  | ⟨_, t, true⟩ :: ms, (v, row), h, p, hp => by
    rcases List.mem_cons.1 hp with rfl | hp
    · exact Ty.fits_image t v h.head
    · exact Row.fits_markedImages (index + 1) (position + 1) ms row h.tail p hp
  | ⟨_, _, false⟩ :: ms, (_, row), h, p, hp =>
    Row.fits_markedImages (index + 1) position ms row h p hp
end

theorem Ty.exists_encode_eq_ok {t : Ty} {v : t.Val} (h : (t.image v).Short) :
    ∃ e, (t.encode v).toExcept = .ok e := by
  rw [← t.encode_image]
  exact ⟨_, Value.toExcept_encode_of_fits (t.fits_image v h)⟩

/-! ## Using up a buffer -/

theorem Ty.suffix_decode [Defaults] (t : Ty) (input : Bytes) : (t.decode input).rest <:+ input := by
  have hsuffix := t.shape.incremental_decode.rest_suffix input
  rwa [t.decode_shape, Reader.map_apply] at hsuffix

theorem Cursor.run_ofBytes_eq_whole {α : Type} {r : Reader α}
    (hr : ∀ input, (r input).rest <:+ input) {buffer : Bytes} {a : α} {es : List Event} :
    (ofBytes buffer).run r = (⟨.ok a, es⟩, ⟨buffer, buffer.length⟩) ↔
      r buffer = ⟨.ok a, [], es⟩ := by
  have hlen := (hr buffer).length_le
  rw [run_ofBytes]
  rcases hread : r buffer with ⟨result, rest, es'⟩
  rw [hread] at hlen
  constructor
  · intro h
    obtain ⟨hreport, hposition⟩ := Prod.mk.inj h
    cases hreport
    obtain rfl : rest = [] := by
      apply List.eq_nil_of_length_eq_zero
      have hrest : buffer.length - rest.length = buffer.length := congrArg position hposition
      change rest.length ≤ buffer.length at hlen
      omega
    rfl
  · intro h
    cases h
    rfl

/-! ## Payloads -/

namespace Message

variable {t : MessageType}

theorem tag_injective {s t : MessageType} (h : s.tag = t.tag) : s = t := by
  have hs := MessageType.ofTag?_tag s
  rw [h, MessageType.ofTag?_tag] at hs
  exact (Option.some.inj hs).symm

/-- Of a payload everything travels, and its lists hold nothing that takes up no bytes. -/
theorem isWhole_payload (t : MessageType) : (Record.decl t.Payload).ty.isWhole = true ∧
    ∀ element ∈ (Record.decl t.Payload).ty.shape.elements, 1 ≤ element.minSize := by
  cases t <;> decide

theorem ofPayload_eq_ok {id? : Option UInt16} {p : t.Payload} {m : Message} :
    ofPayload id? p = .ok m ↔
      ∃ e, (Record.decl t.Payload).marshal (Record.toRow p) = .ok e ∧ m = ⟨t.tag, id?, e⟩ := by
  unfold ofPayload enclose
  cases (Record.decl t.Payload).marshal (Record.toRow p) with
  | error e => simp
  | ok e => simp [eq_comm]

theorem parse_of_tag_ne [Defaults] {m : Message} (h : m.tag ≠ t.tag) :
    m.parse t = ⟨.error (.unexpectedMessageType t m.tag), []⟩ := if_neg h

theorem parse_eq_ok [Defaults] {m : Message} (h : m.tag = t.tag) {p : t.Payload} {es : List Event} :
    m.parse t = ⟨.ok p, es⟩ ↔
      (Record.decl t.Payload).ty.decode m.data = ⟨.ok (Record.toRow p), [], es⟩ := by
  rw [parse, if_pos h, extract, Report.map_eq_ok]
  constructor
  · rintro ⟨row, hrow, rfl⟩
    rw [Record.toRow_ofRow]
    exact Reader.exactly_eq_ok.1 (Report.mapError_eq_ok.1 hrow)
  · intro hread
    refine ⟨Record.toRow p, ?_, Record.ofRow_toRow p⟩
    exact Report.mapError_eq_ok.2 (Reader.exactly_of_ok hread)

/-! ## Delivery -/

theorem decode_of_marshal [Defaults] {p : t.Payload} {e : Bytes}
    (h : (Record.decl t.Payload).marshal (Record.toRow p) = .ok e) :
    (Record.decl t.Payload).ty.decode e = ⟨.ok (Record.toRow p), [], []⟩ := by
  obtain ⟨hwhole, hsize⟩ := isWhole_payload t
  have hread := (Ty.decode_encode_append_iff h []).2 (Ty.covered_of_minSize_pos h hsize 0)
  rwa [List.append_nil, Ty.strip_of_isWhole _ hwhole] at hread

/-- A parsed payload is sent in the same bytes just if parsing them had nothing to report. -/
theorem marshal_eq_data_iff [Defaults] {m : Message} {p : t.Payload} {es : List Event} {e : Bytes}
    (hread : (Record.decl t.Payload).ty.decode m.data = ⟨.ok (Record.toRow p), [], es⟩)
    (h : (Record.decl t.Payload).marshal (Record.toRow p) = .ok e) : e = m.data ↔ es = [] := by
  have himage := Reader.map_of_ok (Record.decl t.Payload).ty.image hread
  rw [← Ty.decode_shape, ← List.append_nil m.data] at himage
  have hrun := Cursor.run_ofBytes_append himage
  rw [List.append_nil] at hrun
  obtain ⟨-, -, hcanonical⟩ := Shape.run_decode_encode _ _ _ _ _ hrun
  rw [Ty.encode_image] at hcanonical
  obtain ⟨-, -, hsame⟩ := hcanonical e h
  rwa [List.take_length] at hsame

/-- Every payload with short texts and lists is written into a message of its type, which is parsed
as the payload, silently, and refused as any other; if the bytes of the payload fit, the message is
written and opens as itself. Of all messages, those with another tag are refused unread, and those
with the right one are parsed just if the reader of the payload uses up their bytes. If the parsed
payload can be sent at all, it is sent as the same message just if nothing was reported. -/
theorem parse_ofPayload [Defaults] :
    (∀ (t : MessageType) (p : t.Payload) (id? : Option UInt16),
      ((Record.decl t.Payload).ty.image (Record.toRow p)).Short →
      ∃ data, (Record.decl t.Payload).marshal (Record.toRow p) = .ok data ∧
        let m : Message := ⟨t.tag, id?, data⟩
        ofPayload id? p = .ok m ∧ m.parse t = ⟨.ok p, []⟩ ∧
        (∀ s ≠ t, m.parse s = ⟨.error (.unexpectedMessageType s t.tag), []⟩) ∧
        (data.length < BigEndian.capacity 4 →
          ∃ w, m.toBytes = .ok w ∧ (ofBytes w).result = .ok m)) ∧
    (∀ (t : MessageType) (m : Message), m.tag ≠ t.tag →
      m.parse t = ⟨.error (.unexpectedMessageType t m.tag), []⟩) ∧
    (∀ (t : MessageType) (m : Message) (p : t.Payload) (es : List Event), m.tag = t.tag →
      (m.parse t = ⟨.ok p, es⟩ ↔ (Cursor.ofBytes m.data).run (Record.decl t.Payload).ty.decode =
        (⟨.ok (Record.toRow p), es⟩, ⟨m.data, m.data.length⟩)) ∧
      (m.parse t = ⟨.ok p, es⟩ →
        ∀ m', ofPayload m.id? p = .ok m' → (m' = m ↔ es = []))) := by
  refine ⟨fun t p id? hshort => ?_, fun t m => parse_of_tag_ne, fun t m p es htag => ⟨?_, ?_⟩⟩
  · obtain ⟨data, hdata⟩ := Ty.exists_encode_eq_ok hshort
    refine ⟨data, hdata, ofPayload_eq_ok.2 ⟨data, hdata, rfl⟩, ?_, fun s hs => ?_, fun hlen => ?_⟩
    · exact (parse_eq_ok rfl).2 (decode_of_marshal hdata)
    · exact parse_of_tag_ne fun htag => hs (tag_injective htag.symm)
    · obtain ⟨w, hwrite, hw, -⟩ := exists_envelope (m := ⟨t.tag, id?, data⟩) hlen
      exact ⟨w, hwrite, ofBytes_result_eq_ok.2 hw⟩
  · rw [parse_eq_ok htag, Cursor.run_ofBytes_eq_whole (Ty.suffix_decode _)]
  · intro hparse m' hm'
    obtain ⟨e, he, rfl⟩ := ofPayload_eq_ok.1 hm'
    rw [← marshal_eq_data_iff ((parse_eq_ok htag).1 hparse) he]
    obtain ⟨tag, id?, data⟩ := m
    obtain rfl : tag = t.tag := htag
    simp

section

attribute [local instance] Defaults.zero

/-- A handshake with a name beyond ASCII, and peers whose host is read although it is no text. The
peers would not be sent in this way. -/
theorem parse_ofPayload_handshake_and_broken_host :
    let t : MessageType := .handshake
    let hello : t.Payload := ⟨"réseau", "0.0.36", "", 8444, 1, [⟨1, "1"⟩]⟩
    let host : Bytes := [0, 0, 0, 1, 0xff]
    let m : Message := ⟨44, none, [0, 0, 0, 1] ++ host ++ [0x20, 0xfc, 0, 0, 0, 0, 0, 0, 0, 2]⟩
    let peers : MessageType.Payload .respondPeers := ⟨[⟨"\uFFFD", 8444, 2⟩]⟩
    (∃ m : Message, ofPayload (some 7) hello = .ok m ∧ m.data.length = 39 ∧
      m.parse t = ⟨.ok hello, []⟩ ∧
      m.parse .respondPeers = ⟨.error (.unexpectedMessageType .respondPeers 1), []⟩ ∧
      ∃ w, m.toBytes = .ok w ∧ (ofBytes w).result = .ok m) ∧
    m.parse t = ⟨.error (.unexpectedMessageType t 44), []⟩ ∧
    m.parse .respondPeers = ⟨.ok peers, [.repairedText ⟨0, some 1⟩]⟩ ∧
    ofPayload none peers ≠ .ok m := by
  intro t hello host m peers
  obtain ⟨hsend, hrefuse, hread⟩ := parse_ofPayload
  have hshort : ((Record.decl t.Payload).ty.image (Record.toRow hello)).Short := by decide +kernel
  obtain ⟨data, hdata, hpayload, hparse, hother, hopen⟩ := hsend t hello (some 7) hshort
  have hlen : data.length = 39 := by
    have hok : ((Record.decl t.Payload).marshal (Record.toRow hello)).toOption.map List.length =
        some 39 := by decide +kernel
    rw [hdata] at hok
    exact Option.some.inj hok
  have hpeers : m.parse .respondPeers = ⟨.ok peers, [.repairedText ⟨0, some 1⟩]⟩ := by
    decide +kernel
  refine ⟨⟨_, hpayload, hlen, hparse, hother .respondPeers (by decide), hopen ?_⟩,
    hrefuse t m (by decide), hpeers, fun hsame => ?_⟩
  · rw [hlen]
    decide
  · have hsilent := ((hread .respondPeers m peers _ rfl).2 hpeers m hsame).1 rfl
    cases hsilent

end

end Message

end PeerWire
