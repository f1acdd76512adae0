import PeerWire.Peer.Message
import PeerWire.Proofs.Incremental
import PeerWire.Proofs.Writing

/-!
# Message envelopes

`Envelope w m`: the bytes `w` are an envelope around the message `m`, that is a tag, a flag, the
two bytes of an id if the flag is set, and the payload behind its length. The reader of messages
takes an envelope off the front of its input and nothing else (`Message.reader_eq_ok`); the flag is
all that it may report (`Message.events_reader`). So a buffer opens as a message if it is an
envelope, it has extra bytes if an envelope is in front of others, and otherwise it is too short.
Main statement: `Message.ofBytes_eq_ok_iff_envelope`.
-/

namespace PeerWire

theorem mapError_eq_ok {ε ε' α : Type} {x : Except ε α} {f : ε → ε'} {a : α} :
    x.mapError f = .ok a ↔ x = .ok a := by
  constructor
  · intro h
    cases x with
    | error e => cases h
    | ok b =>
      cases h
      rfl
  · rintro rfl
    rfl

namespace Message

inductive Envelope : Bytes → Message → Prop where
  | unnumbered (tag : UInt8) (data : Bytes) (hlen : data.length < BigEndian.capacity 4) :
      Envelope (tag :: 0 :: (BigEndian.encode 4 data.length ++ data)) ⟨tag, none, data⟩
  | numbered (tag flag high low : UInt8) (data : Bytes) (hflag : flag ≠ 0)
      (hlen : data.length < BigEndian.capacity 4) :
      Envelope (tag :: flag :: high :: low :: (BigEndian.encode 4 data.length ++ data))
        ⟨tag, some (UInt16.ofNat (256 * high.toNat + low.toNat)), data⟩

/-- What is reported of the flag of an envelope, if the bytes come as far as that. -/
def flagEvents : Bytes → List Event
  | _ :: flag :: _ => Event.ofFlag flag
  | _ => []

/-- The bytes with a flag that writers put. -/
def strictFlag : Bytes → Bytes
  | tag :: flag :: rest => tag :: (if flag > 1 then 1 else flag) :: rest
  | bytes => bytes

/-! ## Reading an envelope -/

theorem decode_pair (high low : UInt8) :
    BigEndian.decode [high, low] = 256 * high.toNat + low.toNat := by
  simp [BigEndian.decode, BigEndian.capacity]
  omega

theorem encode_pair (high low : UInt8) :
    BigEndian.encode 2 (UInt16.ofNat (256 * high.toNat + low.toNat)).toNat = [high, low] := by
  have hlt : BigEndian.decode [high, low] < BigEndian.capacity 2 := BigEndian.decode_lt [high, low]
  have hto : (UInt16.ofNat (BigEndian.decode [high, low])).toNat = BigEndian.decode [high, low] :=
    UInt16.toNat_ofNat_of_lt hlt
  rw [← decode_pair, hto]
  exact BigEndian.encode_decode [high, low]

theorem exists_pair (id : UInt16) : ∃ high low : UInt8,
    id = UInt16.ofNat (256 * high.toNat + low.toNat) := by
  refine ⟨UInt8.ofNat (id.toNat / BigEndian.capacity 1), UInt8.ofNat (id.toNat / 1), ?_⟩
  have hdecode : BigEndian.decode (BigEndian.encode 2 id.toNat) = id.toNat := by
    rw [BigEndian.decode_encode]
    exact Nat.mod_eq_of_lt id.toNat_lt
  rw [← decode_pair]
  exact UInt16.ofNat_toNat.symm.trans (congrArg UInt16.ofNat hdecode.symm)

/-- The reader of an id that may be absent. -/
def readId : Reader (Option UInt16) := do
  if ← Reader.flag then return some (← Reader.u16) else return none

/-- The reader of a message, part by part. -/
def reader : Reader Message := do
  let tag ← Reader.u8
  let id? ← readId
  let data ← Reader.list .u8 Reader.u8
  return ⟨tag, id?, data⟩

abbrev row (m : Message) : decl.Val := (m.tag, m.id?, m.data, ())

theorem decode_decl [Defaults] : decl.ty.decode = row <$> reader := by
  simp [Ty.decode, MarkedRow.decode, MarkedRow.complete, Ty.shape, reader, readId, row]

theorem readId_eq_ok {id? : Option UInt16} {input rest : Bytes} {es : List Event} :
    readId input = ⟨.ok id?, rest, es⟩ ↔ (id? = none ∧ input = 0 :: rest ∧ es = []) ∨
      ∃ flag high low : UInt8, flag ≠ 0 ∧
        id? = some (UInt16.ofNat (256 * high.toNat + low.toNat)) ∧
        input = flag :: high :: low :: rest ∧ es = Event.ofFlag flag := by
  constructor
  · intro h
    obtain ⟨b, mid, es₁, es₂, hflag, hmid, rfl⟩ := Reader.bind_eq_ok.1 h
    obtain ⟨flag, rfl, rfl, rfl⟩ := Reader.flag_eq_ok.1 hflag
    by_cases hzero : flag = 0
    · subst hzero
      obtain ⟨rfl, rfl, rfl⟩ := Reader.pure_eq_ok.1 hmid
      exact .inl ⟨rfl, rfl, rfl⟩
    · have htrue : (flag != 0) = true := by simp [hzero]
      rw [htrue, if_pos rfl, bind_pure_comp] at hmid
      obtain ⟨id, hid, rfl⟩ := Reader.map_eq_ok.1 hmid
      obtain ⟨rfl, rfl⟩ := Reader.u16_eq_ok.1 hid
      obtain ⟨high, low, rfl⟩ := exists_pair id
      rw [encode_pair, List.append_nil]
      exact .inr ⟨flag, high, low, hzero, rfl, rfl, rfl⟩
  · rintro (⟨rfl, rfl, rfl⟩ | ⟨flag, high, low, hflag, rfl, rfl, rfl⟩)
    · exact Reader.bind_of_ok (Reader.flag_cons 0 rest)
    · have hid : Reader.u16 (high :: low :: rest) =
          ⟨.ok (UInt16.ofNat (256 * high.toNat + low.toNat)), rest, []⟩ :=
        Reader.u16_eq_ok.2 ⟨by rw [encode_pair]; rfl, rfl⟩
      rw [readId, Reader.bind_of_ok (Reader.flag_cons_of_ne hflag _), if_pos rfl, bind_pure_comp,
        Reader.map_of_ok some hid, List.append_nil]

theorem reader_cons {tag : UInt8} {id? : Option UInt16} {data input mid rest : Bytes}
    {es : List Event} (hid : readId input = ⟨.ok id?, mid, es⟩)
    (hdata : Reader.list .u8 Reader.u8 mid = ⟨.ok data, rest, []⟩) :
    reader (tag :: input) = ⟨.ok ⟨tag, id?, data⟩, rest, es⟩ := by
  rw [reader, Reader.bind_of_ok (Reader.u8_cons tag input), Reader.bind_of_ok hid,
    Reader.bind_of_ok hdata]
  simp [Reader.pure_apply]

theorem reader_eq_ok {m : Message} {input rest : Bytes} {es : List Event} :
    reader input = ⟨.ok m, rest, es⟩ ↔
      ∃ w, Envelope w m ∧ input = w ++ rest ∧ es = flagEvents w := by
  constructor
  · intro h
    obtain ⟨tag, mid, es₁, es₂, htag, hmid, rfl⟩ := Reader.bind_eq_ok.1 h
    obtain ⟨id?, mid', es₃, es₄, hid, hmid', rfl⟩ := Reader.bind_eq_ok.1 hmid
    obtain ⟨data, mid'', es₅, es₆, hdata, hpure, rfl⟩ := Reader.bind_eq_ok.1 hmid'
    obtain ⟨rfl, rfl, rfl⟩ := Reader.pure_eq_ok.1 hpure
    obtain ⟨rfl, rfl⟩ := Reader.u8_eq_ok.1 htag
    obtain ⟨hlen, rfl, rfl⟩ := Reader.list_u8_eq_ok.1 hdata
    rw [BigEndian.encode_one]
    rcases readId_eq_ok.1 hid with ⟨rfl, rfl, rfl⟩ | ⟨flag, high, low, hflag, rfl, rfl, rfl⟩
    · exact ⟨_, .unnumbered tag data hlen, by simp, rfl⟩
    · exact ⟨_, .numbered tag flag high low data hflag hlen, by simp, by simp [flagEvents]⟩
  · rintro ⟨w, hw, rfl, rfl⟩
    cases hw with
    | unnumbered tag data hlen =>
      exact reader_cons (readId_eq_ok.2 (.inl ⟨rfl, by simp, rfl⟩))
        (Reader.list_u8_append hlen rest)
    | numbered tag flag high low data hflag hlen =>
      exact reader_cons (readId_eq_ok.2 (.inr ⟨flag, high, low, hflag, rfl, by simp, rfl⟩))
        (Reader.list_u8_append hlen rest)

theorem incremental_reader : reader.Incremental := by
  refine Reader.Incremental.u8.bind fun tag => .bind (Reader.Incremental.flag.bind fun b => ?_)
    fun id? => (Reader.Incremental.list .u8 .u8).bind fun data => .pure _
  cases b with
  | false => exact .pure _
  | true => exact Reader.Incremental.u16.bind fun id => .pure _

/-- Behind the flag a reader of messages has nothing to report. -/
theorem events_reader (input : Bytes) : (reader input).events = flagEvents input := by
  rcases input with _ | ⟨tag, _ | ⟨flag, input⟩⟩
  · rfl
  · rfl
  · have hrest (id? : Option UInt16) :
        (do return ⟨tag, id?, ← Reader.list .u8 Reader.u8⟩ : Reader Message).Silent :=
      (Reader.Silent.list .u8 .u8).bind fun data => .pure _
    rw [reader, Reader.bind_of_ok (Reader.u8_cons tag _), readId, bind_assoc]
    refine Reader.events_bind (Reader.flag_cons flag input) ?_
    cases flag != 0 with
    | false => exact hrest none
    | true => exact (Reader.Silent.u16.bind fun id => .pure _).bind hrest

/-! ## Opening a buffer -/

theorem ofBytes_of_ok [Defaults] {buffer : Bytes} {m : Message} {es : List Event}
    (h : reader buffer = ⟨.ok m, [], es⟩) :
    ofBytes buffer = ⟨.ok m, es ++ [.messageDecoded m.tag m.id? m.data.length]⟩ := by
  have hrow := Reader.map_of_ok row h
  rw [← decode_decl] at hrow
  rw [ofBytes, Reader.exactly_of_ok hrow]
  rfl

theorem ofBytes_of_extra [Defaults] {buffer rest : Bytes} {m : Message} {es : List Event}
    (h : reader buffer = ⟨.ok m, rest, es⟩) (hrest : rest ≠ []) :
    ofBytes buffer = ⟨.error (.codec (.extraInput rest.length)), es⟩ := by
  have hrow := Reader.map_of_ok row h
  rw [← decode_decl] at hrow
  rw [ofBytes, Reader.exactly_of_extra hrow hrest]
  rfl

theorem ofBytes_of_error [Defaults] {buffer rest : Bytes} {e : WireError} {es : List Event}
    (h : reader buffer = ⟨.error e, rest, es⟩) : ofBytes buffer = ⟨.error (.codec e), es⟩ := by
  have hrow := (Reader.map_eq_error (f := row)).2 h
  rw [← decode_decl] at hrow
  rw [ofBytes, Reader.exactly_of_error hrow]
  rfl

theorem ofFront_eq [Defaults] (buffer : Bytes) : ofFront buffer =
    ⟨((reader buffer).result.map (·, (reader buffer).rest)).mapError .codec,
      (reader buffer).events⟩ := by
  rw [ofFront, Decl.unmarshal, Reader.front, decode_decl, Reader.map_apply]
  rcases reader buffer with ⟨_ | m, rest, es⟩ <;> rfl

/-! ## Writing an envelope -/

theorem strictFlag_cons {tag flag : UInt8} (h : flag ≠ 0) (rest : Bytes) :
    strictFlag (tag :: flag :: rest) = tag :: 1 :: rest := by
  have hone : (if flag > 1 then 1 else flag) = 1 := by
    by_cases hgt : flag > 1
    · exact if_pos hgt
    · have hle : flag.toNat ≤ 1 := UInt8.le_iff_toNat_le.1 (UInt8.not_lt.1 hgt)
      have hpos : flag.toNat ≠ 0 := fun hzero => h (UInt8.toNat_inj.1 hzero)
      have hflag : flag = 1 := UInt8.toNat_inj.1 (Nat.le_antisymm hle (Nat.pos_of_ne_zero hpos))
      rw [if_neg hgt, hflag]
  rw [strictFlag, hone]

/-- The bytes of an id that may be absent. -/
def idBytes : Option UInt16 → Bytes
  | none => [0]
  | some id => 1 :: BigEndian.encode 2 id.toNat

theorem encode_id_eq_ok {id? : Option UInt16} {w : Bytes} :
    (Ty.encode (.option .u16) id?).toExcept = .ok w ↔ w = idBytes id? := by
  cases id? with
  | none => exact Emission.write_eq_ok
  | some id =>
    rw [Ty.encode, Emission.append_eq_ok]
    constructor
    · rintro ⟨w₁, w₂, h₁, h₂, rfl⟩
      obtain rfl := Emission.write_eq_ok.1 h₁
      obtain rfl := Emission.write_eq_ok.1 h₂
      rfl
    · rintro rfl
      exact ⟨[1], _, Emission.write_eq_ok.2 rfl, Emission.write_eq_ok.2 rfl, rfl⟩

theorem toBytes_eq_ok {m : Message} {w : Bytes} :
    m.toBytes = .ok w ↔ m.data.length < BigEndian.capacity 4 ∧
      w = m.tag :: (idBytes m.id? ++ (BigEndian.encode 4 m.data.length ++ m.data)) := by
  have hu8 : Ty.encode .u8 = Emission.u8 := rfl
  have hencode : decl.ty.encode (Record.toRow m) = Emission.u8 m.tag ++
      (Ty.encode (.option .u16) m.id? ++ Emission.list (m.data.map Emission.u8)) := by
    change Emission.u8 m.tag ++ (Ty.encode (.option .u16) m.id? ++
      (Ty.encode (.list .u8) m.data ++ Emission.done)) = _
    rw [Emission.append_done, Ty.encode, hu8]
  rw [toBytes, mapError_eq_ok, Decl.marshal, hencode, Emission.append_eq_ok]
  constructor
  · rintro ⟨w₁, w₂, h₁, h₂, rfl⟩
    obtain ⟨w₃, w₄, h₃, h₄, rfl⟩ := Emission.append_eq_ok.1 h₂
    obtain ⟨hlen, rfl⟩ := Emission.list_u8_eq_ok.1 h₄
    rw [Emission.write_eq_ok.1 h₁, encode_id_eq_ok.1 h₃, BigEndian.encode_one]
    exact ⟨hlen, rfl⟩
  · rintro ⟨hlen, rfl⟩
    refine ⟨[m.tag], _, Emission.write_eq_ok.2 (BigEndian.encode_one _).symm, ?_, rfl⟩
    exact Emission.append_eq_ok.2
      ⟨_, _, encode_id_eq_ok.2 rfl, Emission.list_u8_eq_ok.2 ⟨hlen, rfl⟩, rfl⟩

theorem toBytes_of_envelope {w : Bytes} {m : Message} (h : Envelope w m) :
    m.toBytes = .ok (strictFlag w) := by
  cases h with
  | unnumbered tag data hlen => exact toBytes_eq_ok.2 ⟨hlen, rfl⟩
  | numbered tag flag high low data hflag hlen =>
    rw [strictFlag_cons hflag, toBytes_eq_ok, idBytes, encode_pair]
    exact ⟨hlen, rfl⟩

/-- What is written of a message is an envelope around it, with a flag that is not loose. -/
theorem exists_envelope {m : Message} (h : m.data.length < BigEndian.capacity 4) :
    ∃ w, m.toBytes = .ok w ∧ Envelope w m ∧ flagEvents w = [] := by
  obtain ⟨tag, _ | id, data⟩ := m
  · exact ⟨_, toBytes_of_envelope (.unnumbered tag data h), .unnumbered tag data h, rfl⟩
  · obtain ⟨high, low, rfl⟩ := exists_pair id
    have hw := Envelope.numbered tag 1 high low data (by decide) h
    exact ⟨_, toBytes_of_envelope hw, hw, rfl⟩

/-! ## Classification -/

theorem ofBytes_of_envelope [Defaults] {buffer : Bytes} {m : Message} (h : Envelope buffer m) :
    ofBytes buffer =
      ⟨.ok m, flagEvents buffer ++ [.messageDecoded m.tag m.id? m.data.length]⟩ :=
  ofBytes_of_ok (reader_eq_ok.2 ⟨buffer, h, (List.append_nil buffer).symm, rfl⟩)

theorem ofBytes_of_envelope_append [Defaults] {w rest : Bytes} {m : Message} (h : Envelope w m)
    (hrest : rest ≠ []) : ofBytes (w ++ rest) =
      ⟨.error (.codec (.extraInput rest.length)), flagEvents (w ++ rest)⟩ := by
  have hread : reader (w ++ rest) = ⟨.ok m, rest, flagEvents w⟩ :=
    reader_eq_ok.2 ⟨w, h, rfl, rfl⟩
  have hevents := events_reader (w ++ rest)
  rw [hread] at hevents
  rw [ofBytes_of_extra hread hrest, ← hevents]

theorem ofBytes_of_no_envelope [Defaults] {buffer : Bytes}
    (h : ∀ w m, Envelope w m → ¬ w <+: buffer) :
    ∃ needed remaining, ofBytes buffer =
      ⟨.error (.codec (.insufficientBytes needed remaining)), flagEvents buffer⟩ := by
  have hevents := events_reader buffer
  rcases hread : reader buffer with ⟨e | m, rest, es⟩
  · obtain ⟨needed, -, rfl, -⟩ := incremental_reader.of_error hread
    rw [hread] at hevents
    exact ⟨needed, rest.length, by rw [ofBytes_of_error hread, ← hevents]⟩
  · obtain ⟨w, hw, rfl, -⟩ := reader_eq_ok.1 hread
    exact absurd (List.prefix_append w rest) (h w m hw)

theorem ofFront_eq_ok [Defaults] {buffer rest : Bytes} {m : Message} :
    (ofFront buffer).result = .ok (m, rest) ↔ ∃ w, Envelope w m ∧ buffer = w ++ rest := by
  rw [ofFront_eq]
  rcases hread : reader buffer with ⟨e | m', rest', es⟩
  · constructor
    · intro h
      cases h
    · rintro ⟨w, hw, rfl⟩
      rw [reader_eq_ok.2 ⟨w, hw, rfl, rfl⟩] at hread
      cases hread
  · constructor
    · intro h
      cases h
      obtain ⟨w, hw, hsplit, -⟩ := reader_eq_ok.1 hread
      exact ⟨w, hw, hsplit⟩
    · rintro ⟨w, hw, rfl⟩
      rw [reader_eq_ok.2 ⟨w, hw, rfl, rfl⟩] at hread
      cases hread
      rfl

theorem ofBytes_result_eq_ok [Defaults] {buffer : Bytes} {m : Message} :
    (ofBytes buffer).result = .ok m ↔ Envelope buffer m := by
  refine ⟨fun h => ?_, fun h => by rw [ofBytes_of_envelope h]⟩
  rcases hread : reader buffer with ⟨e | m', rest, es⟩
  · rw [ofBytes_of_error hread] at h
    cases h
  · by_cases hrest : rest = []
    · subst hrest
      rw [ofBytes_of_ok hread] at h
      cases h
      obtain ⟨w, hw, hsplit, -⟩ := reader_eq_ok.1 hread
      rwa [hsplit, List.append_nil]
    · rw [ofBytes_of_extra hread hrest] at h
      cases h

/-- A buffer opens as a message just if it is an envelope around it. What is written of that message
is the buffer with a strict flag. Bytes behind an envelope are extra; a buffer that no envelope
starts is too short. The reports tell of a loose flag, as far as the bytes come to it, and of the
message. Every message whose payload fits its length can be written, and opens again. -/
theorem ofBytes_eq_ok_iff_envelope [Defaults] (buffer : Bytes) :
    (∀ m, (ofBytes buffer).result = .ok m ↔ Envelope buffer m) ∧
    (∀ m, Envelope buffer m → m.toBytes = .ok (strictFlag buffer) ∧
      (ofBytes buffer).events =
        flagEvents buffer ++ [.messageDecoded m.tag m.id? m.data.length]) ∧
    (∀ w rest m, Envelope w m → buffer = w ++ rest → rest ≠ [] → ofBytes buffer =
      ⟨.error (.codec (.extraInput rest.length)), flagEvents buffer⟩) ∧
    ((∀ w m, Envelope w m → ¬ w <+: buffer) → ∃ needed remaining, ofBytes buffer =
      ⟨.error (.codec (.insufficientBytes needed remaining)), flagEvents buffer⟩) ∧
    (∀ m, (ofBytes buffer).result = .ok m ↔ (ofFront buffer).result = .ok (m, [])) ∧
    ∀ m : Message, m.data.length < BigEndian.capacity 4 → ∃ w, m.toBytes = .ok w ∧
      ofBytes w = ⟨.ok m, [.messageDecoded m.tag m.id? m.data.length]⟩ := by
  refine ⟨fun m => ofBytes_result_eq_ok, fun m h => ⟨toBytes_of_envelope h, ?_⟩, ?_,
    ofBytes_of_no_envelope, fun m => ?_, fun m h => ?_⟩
  · rw [ofBytes_of_envelope h]
  · rintro w rest m hw rfl hrest
    exact ofBytes_of_envelope_append hw hrest
  · rw [ofBytes_result_eq_ok, ofFront_eq_ok]
    constructor
    · exact fun h => ⟨buffer, h, (List.append_nil buffer).symm⟩
    · rintro ⟨w, hw, rfl⟩
      rwa [List.append_nil]
  · obtain ⟨w, hwrite, hw, hflag⟩ := exists_envelope h
    refine ⟨w, hwrite, ?_⟩
    rw [ofBytes_of_envelope hw, hflag]
    rfl

section

attribute [local instance] Defaults.zero

/-- A loose flag, an id, and two bytes behind the payload. -/
theorem ofBytes_eq_ok_iff_envelope_loose_flag :
    let m : Message := ⟨9, some 0x0102, [0xff]⟩
    let w : Bytes := [9, 7, 1, 2, 0, 0, 0, 1, 0xff]
    Envelope w m ∧ (ofBytes w).result = .ok m ∧ m.toBytes = .ok [9, 1, 1, 2, 0, 0, 0, 1, 0xff] ∧
    ofBytes (w ++ [8, 8]) = ⟨.error (.codec (.extraInput 2)), [.looseFlag 7]⟩ := by
  intro m w
  have hw : Envelope w m := .numbered 9 7 1 2 [0xff] (by decide) (by decide)
  obtain ⟨hopen, hwhole, -⟩ := ofBytes_eq_ok_iff_envelope w
  obtain ⟨-, -, hextra, -⟩ := ofBytes_eq_ok_iff_envelope (w ++ [8, 8])
  exact ⟨hw, (hopen m).2 hw, (hwhole m hw).1, hextra w [8, 8] m hw rfl (by decide)⟩

end

end Message

end PeerWire
