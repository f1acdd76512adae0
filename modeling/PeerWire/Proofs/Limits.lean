import PeerWire.Proofs.Conformance
import PeerWire.Proofs.Images

/-!
# Writing against a limit

A buffer with a limit takes each chunk whole or refuses it. What is written of a value is a fixed
sequence of chunks, one for each number, flag, block and length, so the value ends up in the buffer
whole if all of it fits; otherwise the chunks before the first that does not fit are there, that
chunk's refusal is the result, and no chunk behind it is offered. Without a limit, values written
one after the other lie one behind the other. Main statement: `Outgoing.deliver_limited`.
-/

namespace PeerWire

/-- What can be written: a value of a declared type, or a dynamic value under a shape. -/
inductive Outgoing where
  | declared (t : Ty) (v : t.Val)
  | dynamic (v : Value) (k : Shape)

namespace Outgoing

def emission : Outgoing → Emission
  | declared t v => t.encode v
  | dynamic v k => v.encode k

/-- The nodes of what travels, in wire order. -/
def nodes : Outgoing → List Node
  | declared t v => (t.image v).nodes t.shape
  | dynamic v k => v.nodes k

/-- The chunks of all nodes: one for each number, flag, block and length, and text behind its
length. -/
def chunks (o : Outgoing) : List Bytes := o.nodes.flatMap Node.writes

theorem emission_eq_concat (o : Outgoing) :
    o.emission = Emission.concat (o.nodes.map Node.emission) := by
  cases o with
  | declared t v => exact (t.encode_image v).symm.trans (Value.encode_eq_concat _ _)
  | dynamic v k => exact Value.encode_eq_concat v k

theorem emission_of_ok {o : Outgoing} {e : Bytes} (h : o.emission.toExcept = .ok e) :
    o.emission = ⟨o.chunks, none⟩ ∧ o.chunks.flatten = e := by
  obtain ⟨hfault, rfl⟩ := Emission.toExcept_eq_ok.1 h
  rw [emission_eq_concat, Value.concat_map_emission] at hfault ⊢
  have hall : o.nodes.takeWhile (fun n => n.offence? = none) = o.nodes := by
    apply List.takeWhile_eq_self_iff.2
    simpa using List.findSome?_eq_none_iff.1 hfault
  rw [hall, show o.nodes.findSome? Node.offence? = none from hfault]
  exact ⟨rfl, rfl⟩

end Outgoing

/-! ## One chunk, and a run of chunks -/

namespace Sink

variable {content : Bytes} {limit : Nat}

theorem accept_of_le {chunk : Bytes} (h : content.length + chunk.length ≤ limit) :
    accept ⟨content, some limit⟩ chunk = (.ok (), ⟨content ++ chunk, some limit⟩) :=
  if_neg (Nat.not_lt.2 h)

theorem accept_of_lt {chunk : Bytes} (h : limit < content.length + chunk.length) :
    accept ⟨content, some limit⟩ chunk =
      (.error (.insufficientBytes chunk.length (limit - content.length)), ⟨content, some limit⟩) :=
  if_pos h

/-- A first chunk does not fit if not all chunks do. -/
theorem exists_unfit (room : Nat) {chunks : List Bytes} (h : room < chunks.flatten.length) :
    ∃ fitting chunk later, chunks = fitting ++ chunk :: later ∧ fitting.flatten.length ≤ room ∧
      room < fitting.flatten.length + chunk.length := by
  induction chunks generalizing room with
  | nil => exact absurd h (Nat.not_lt_zero _)
  | cons first chunks ih =>
    rw [List.flatten_cons, List.length_append] at h
    by_cases hfirst : first.length ≤ room
    · obtain ⟨fitting, chunk, later, rfl, hle, hlt⟩ := ih (room - first.length) (by omega)
      refine ⟨first :: fitting, chunk, later, rfl, ?_, ?_⟩
      · rw [List.flatten_cons, List.length_append]
        omega
      · rw [List.flatten_cons, List.length_append]
        omega
    · refine ⟨[], first, chunks, rfl, Nat.zero_le _, ?_⟩
      rw [List.flatten_nil, List.length_nil]
      omega

theorem deliverFrom_of_le (fault? : Option WireError) {chunks : List Bytes} (later : List Bytes)
    (h : content.length + chunks.flatten.length ≤ limit) (offered : List Bytes) :
    Emission.deliverFrom accept.recording fault? (chunks ++ later)
        (⟨content, some limit⟩, offered) =
      Emission.deliverFrom accept.recording fault? later
        (⟨content ++ chunks.flatten, some limit⟩, offered ++ chunks) := by
  induction chunks generalizing content offered with
  | nil => simp
  | cons chunk chunks ih =>
    rw [List.flatten_cons, List.length_append] at h
    have hchunk : content.length + chunk.length ≤ limit := by omega
    have hchunks : (content ++ chunk).length + chunks.flatten.length ≤ limit := by
      rw [List.length_append]
      omega
    rw [List.cons_append, Emission.deliverFrom, Destination.recording, accept_of_le hchunk]
    simp only [ih hchunks, List.flatten_cons, List.append_assoc, List.singleton_append]

theorem deliver_of_le {chunks : List Bytes} (h : content.length + chunks.flatten.length ≤ limit) :
    (⟨chunks, none⟩ : Emission).deliver accept.recording (⟨content, some limit⟩, []) =
      (.ok (), ⟨content ++ chunks.flatten, some limit⟩, chunks) := by
  have hrun := deliverFrom_of_le none [] h []
  rw [List.append_nil] at hrun
  exact hrun

theorem deliver_of_lt {fitting later : List Bytes} {chunk : Bytes}
    (hle : (content ++ fitting.flatten).length ≤ limit)
    (hlt : limit < (content ++ fitting.flatten).length + chunk.length) :
    (⟨fitting ++ chunk :: later, none⟩ : Emission).deliver accept.recording
        (⟨content, some limit⟩, []) =
      (.error (.insufficientBytes chunk.length (limit - (content ++ fitting.flatten).length)),
        ⟨content ++ fitting.flatten, some limit⟩, fitting ++ [chunk]) := by
  rw [List.length_append] at hle
  unfold Emission.deliver
  rw [deliverFrom_of_le none _ hle, Emission.deliverFrom, Destination.recording, accept_of_lt hlt]
  rfl

/-- The delivery of chunks that do not all fit stops at the first that does not. -/
theorem exists_deliver_of_lt {chunks : List Bytes} (hlimit : content.length ≤ limit)
    (h : limit < content.length + chunks.flatten.length) : ∃ fitting chunk later,
      chunks = fitting ++ chunk :: later ∧ (content ++ fitting.flatten).length ≤ limit ∧
      limit < (content ++ fitting.flatten).length + chunk.length ∧
      (⟨chunks, none⟩ : Emission).deliver accept.recording (⟨content, some limit⟩, []) =
        (.error (.insufficientBytes chunk.length (limit - (content ++ fitting.flatten).length)),
          ⟨content ++ fitting.flatten, some limit⟩, fitting ++ [chunk]) := by
  have hroom : limit - content.length < chunks.flatten.length := by omega
  obtain ⟨fitting, chunk, later, rfl, hfitting, hchunk⟩ := exists_unfit _ hroom
  have hle : (content ++ fitting.flatten).length ≤ limit := by
    rw [List.length_append]
    omega
  have hlt : limit < (content ++ fitting.flatten).length + chunk.length := by
    rw [List.length_append]
    omega
  exact ⟨fitting, chunk, later, rfl, hle, hlt, deliver_of_lt hle hlt⟩

end Sink

/-! ## Values one after the other -/

namespace Sink

/-- Writes each into the sink, whether or not the ones before it could be written. -/
def putEach (s : Sink) : List Emission → List (Except WireError Unit) × Sink
  | [] => ([], s)
  | a :: as =>
    let (answer, s') := s.put a
    let (answers, s'') := s'.putEach as
    (answer :: answers, s'')

theorem putEach_unlimited (as : List Emission) (before : Bytes) :
    (⟨before, none⟩ : Sink).putEach as = (as.map fun a => a.toExcept.map fun _ => (),
      ⟨before ++ as.flatMap Emission.bytes, none⟩) := by
  induction as generalizing before with
  | nil => simp [putEach]
  | cons a as ih =>
    rw [putEach, put_unlimited]
    simp [ih]

end Sink

namespace Outgoing

/-- What is written when all values can be written. -/
theorem putEach_of_ok {os : List Outgoing} {es : List Bytes}
    (h : List.Forall₂ (fun o e => o.emission.toExcept = .ok e) os es) (before : Bytes) :
    (⟨before, none⟩ : Sink).putEach (os.map emission) =
      (os.map fun _ => .ok (), ⟨before ++ es.flatten, none⟩) := by
  induction h generalizing before with
  | nil => simp [Sink.putEach]
  | cons hfirst _ ih =>
    obtain ⟨-, hbytes⟩ := Emission.toExcept_eq_ok.1 hfirst
    rw [List.map_cons, Sink.putEach, Sink.put_unlimited, hfirst, hbytes]
    simp [ih, Except.map]

/-! ## Limits -/

/-- Into a buffer with a limit, a value that can be written at all goes chunk by chunk. If all of it
fits, all of it is written. If not, what is written are the chunks before the first that does not
fit; the answer is the refusal of that chunk, and it is the last that is offered. Into a buffer
without a limit, values are written one behind the other, and what was there before them stays, also
if some cannot be written. -/
theorem deliver_limited :
    (∀ (o : Outgoing) (e : Bytes), o.emission.toExcept = .ok e →
      ∀ (before : Bytes) (limit : Nat), before.length ≤ limit →
      let run := o.emission.deliver Sink.accept.recording (⟨before, some limit⟩, [])
      (o.emission.writes = o.chunks ∧ o.chunks.flatten = e) ∧
      (⟨before, some limit⟩ : Sink).put o.emission = (run.1, run.2.1) ∧
      (run.1 = .ok () ↔ before.length + e.length ≤ limit) ∧
      (before.length + e.length ≤ limit → run.2 = (⟨before ++ e, some limit⟩, o.chunks)) ∧
      (¬ before.length + e.length ≤ limit → ∃ fitting chunk later,
        o.chunks = fitting ++ chunk :: later ∧
        (before ++ fitting.flatten).length ≤ limit ∧
        limit < (before ++ fitting.flatten).length + chunk.length ∧
        run = (.error (.insufficientBytes chunk.length
          (limit - (before ++ fitting.flatten).length)),
          ⟨before ++ fitting.flatten, some limit⟩, fitting ++ [chunk]))) ∧
    ∀ (os : List Outgoing) (before : Bytes),
      let written := (⟨before, none⟩ : Sink).putEach (os.map emission)
      before <+: written.2.content ∧
      ∀ es, List.Forall₂ (fun o e => o.emission.toExcept = .ok e) os es →
        written = (os.map fun _ => .ok (), ⟨before ++ es.flatten, none⟩) := by
  refine ⟨fun o e h before limit hlimit => ?_, fun os before => ⟨?_, fun es hes => ?_⟩⟩
  · obtain ⟨hemission, rfl⟩ := emission_of_ok h
    intro run
    obtain ⟨offered, -, hput⟩ := o.emission.deliver_recording Sink.accept ⟨before, some limit⟩
    have hrun : run = (⟨o.chunks, none⟩ : Emission).deliver Sink.accept.recording
        (⟨before, some limit⟩, []) := congrArg (Emission.deliver · _ _) hemission
    have hfits (hle : before.length + o.chunks.flatten.length ≤ limit) :
        run = (.ok (), ⟨before ++ o.chunks.flatten, some limit⟩, o.chunks) := by
      rw [hrun, Sink.deliver_of_le hle]
    refine ⟨⟨by rw [hemission], rfl⟩, ?_, ⟨fun hok => ?_, fun hle => by rw [hfits hle]⟩,
      fun hle => by rw [hfits hle], fun hlt => ?_⟩
    · show o.emission.deliver Sink.accept ⟨before, some limit⟩ = (run.1, run.2.1)
      rw [show run = _ from hput]
    · by_contra hlt
      obtain ⟨_, _, _, -, -, -, hstop⟩ := Sink.exists_deliver_of_lt hlimit (Nat.not_le.1 hlt)
      rw [hrun, hstop] at hok
      cases hok
    · rw [hrun]
      exact Sink.exists_deliver_of_lt hlimit (Nat.not_le.1 hlt)
  · rw [Sink.putEach_unlimited]
    exact List.prefix_append _ _
  · exact putEach_of_ok hes before

/-- Two bytes are left for the three of a text. The flag behind it would have fitted. -/
theorem deliver_limited_flag_behind_text :
    let k : Shape := .record "Note" [⟨"marks", 0, .list .string⟩, ⟨"open", 1, .bool⟩]
    let o : Outgoing := .dynamic (.record [.list [.string "abc", .string ""], .bool true]) k
    let id : Outgoing := .declared (.option .u16) (some 0x1234)
    let e : Bytes := [0, 0, 0, 2, 0, 0, 0, 3, 0x61, 0x62, 0x63, 0, 0, 0, 0, 1]
    o.emission.toExcept = .ok e ∧
    (⟨[9], some 11⟩ : Sink).put o.emission =
      (.error (.insufficientBytes 3 2), ⟨[9, 0, 0, 0, 2, 0, 0, 0, 3], some 11⟩) ∧
    (∃ later, o.chunks = [[0, 0, 0, 2], [0, 0, 0, 3], [0x61, 0x62, 0x63]] ++ later ∧ [1] ∈ later) ∧
    (⟨[9], some 17⟩ : Sink).put o.emission = (.ok (), ⟨9 :: e, some 17⟩) ∧
    (⟨[9], none⟩ : Sink).putEach [o.emission, id.emission] =
      ([.ok (), .ok ()], ⟨9 :: e ++ [1, 0x12, 0x34], none⟩) := by
  intro k o id e
  have he : o.emission.toExcept = .ok e := by decide +kernel
  have hid : id.emission.toExcept = .ok [1, 0x12, 0x34] := by decide +kernel
  obtain ⟨hlimited, heach⟩ := deliver_limited
  obtain ⟨-, hput, -, -, hstops⟩ := hlimited o e he [9] 11 (by decide)
  obtain ⟨-, hput', hok, hwhole, -⟩ := hlimited o e he [9] 17 (by decide)
  obtain ⟨-, hseq⟩ := heach [o, id] [9]
  obtain ⟨fitting, chunk, later, -, -, -, hrun⟩ := hstops (by decide)
  have hoffered : (o.emission.deliver Sink.accept.recording (⟨[9], some 11⟩, [])).2.2 =
      [[0, 0, 0, 2], [0, 0, 0, 3]] ++ [[0x61, 0x62, 0x63]] := by decide +kernel
  rw [hrun] at hoffered
  obtain ⟨rfl, hchunk⟩ := List.append_inj' hoffered rfl
  cases hchunk
  have hall : o.chunks = [[0, 0, 0, 2], [0, 0, 0, 3], [0x61, 0x62, 0x63]] ++
      [[0, 0, 0, 0], [], [1]] := by decide +kernel
  refine ⟨he, hput.trans (by rw [hrun]; rfl), ⟨_, hall, by decide⟩, hput'.trans ?_, ?_⟩
  · rw [hok.2 (by decide), hwhole (by decide)]
    rfl
  · exact hseq [e, [1, 0x12, 0x34]] (.cons he (.cons hid .nil))

end Outgoing

end PeerWire
