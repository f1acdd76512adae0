import Mathlib.Data.List.Forall2
import PeerWire.Proofs.Envelope

/-!
# Streams of messages

Messages that are written one after the other are opened one after the other, each at the front of
what the one before left (`Message.openFronts`). Of a stream that is cut off anywhere, all messages
before the cut are opened, and nothing else is: what is left of a message is no envelope and never
starts with one, so opening it only runs out of bytes (`Message.ofFront_of_prefix`). Main statement:
`Message.openFronts_take`.
-/

namespace PeerWire.Message

/-- What some calls of `ofFront` come to: the messages, what is left behind the last of them, and
why opening stopped if a call failed. -/
structure Opened where
  messages : List Message
  rest : Bytes
  error? : Option PeerError
  deriving DecidableEq

/-- Opens a message at the front of what the one before left, until a call fails or no calls are
left. -/
def openFronts [Defaults] : (calls : Nat) → Bytes → Opened
  | 0, buffer => ⟨[], buffer, none⟩
  | calls + 1, buffer =>
    match (ofFront buffer).result with
    | .ok (m, rest) =>
      let opened := openFronts calls rest
      { opened with messages := m :: opened.messages }
    | .error e => ⟨[], buffer, some e⟩

/-! ## One call -/

theorem openFronts_envelope [Defaults] {w : Bytes} {m : Message} (h : Envelope w m) (calls : Nat)
    (rest : Bytes) : openFronts (calls + 1) (w ++ rest) =
      ⟨m :: (openFronts calls rest).messages, (openFronts calls rest).rest,
        (openFronts calls rest).error?⟩ := by
  rw [openFronts, ofFront_eq_ok.2 ⟨w, h, rfl⟩]

/-- An envelope does not start with another envelope. -/
theorem Envelope.eq_of_append {w w' rest : Bytes} {m m' : Message} (h : Envelope w m)
    (h' : Envelope w' m') (heq : w = w' ++ rest) : rest = [] := by
  have hread : reader w = ⟨.ok m, [], flagEvents w⟩ :=
    reader_eq_ok.2 ⟨w, h, (List.append_nil w).symm, rfl⟩
  rw [reader_eq_ok.2 ⟨w', h', heq, rfl⟩] at hread
  exact congrArg Reading.rest hread

/-- Of an envelope without its end nothing is opened, for want of bytes. -/
theorem ofFront_of_prefix [Defaults] {w p : Bytes} {m : Message} (h : Envelope w m) (hp : p <+: w)
    (hne : p ≠ w) : ∃ needed remaining,
      (ofFront p).result = .error (.codec (.insufficientBytes needed remaining)) := by
  rw [ofFront_eq]
  rcases hread : reader p with ⟨e | m', rest, es⟩
  · obtain ⟨needed, -, rfl, -⟩ := incremental_reader.of_error hread
    exact ⟨needed, rest.length, rfl⟩
  · obtain ⟨w', hw', rfl, -⟩ := reader_eq_ok.1 hread
    obtain ⟨missing, rfl⟩ := hp
    have hnil := h.eq_of_append hw' (List.append_assoc w' rest missing)
    rw [(List.append_eq_nil_iff.1 hnil).2, List.append_nil] at hne
    exact absurd rfl hne

/-! ## Runs of calls -/

theorem exists_envelopes {ms : List Message} (h : ∀ m ∈ ms, m.data.length < BigEndian.capacity 4) :
    ∃ ws : List Bytes, ms.map toBytes = ws.map .ok ∧ List.Forall₂ Envelope ws ms := by
  induction ms with
  | nil => exact ⟨[], rfl, .nil⟩
  | cons m ms ih =>
    obtain ⟨hm, hms⟩ := List.forall_mem_cons.1 h
    obtain ⟨w, hwrite, hw, -⟩ := exists_envelope hm
    obtain ⟨ws, hwrites, hws⟩ := ih hms
    exact ⟨w :: ws, by rw [List.map_cons, List.map_cons, hwrite, hwrites], .cons hw hws⟩

/-- Calls go on behind envelopes as they would without them. -/
theorem openFronts_envelopes [Defaults] {ws : List Bytes} {ms : List Message}
    (h : List.Forall₂ Envelope ws ms) (calls : Nat) (rest : Bytes) :
    openFronts (ms.length + calls) (ws.flatten ++ rest) =
      ⟨ms ++ (openFronts calls rest).messages, (openFronts calls rest).rest,
        (openFronts calls rest).error?⟩ := by
  induction h with
  | nil => rw [List.length_nil, Nat.zero_add]; rfl
  | @cons w m ws ms hw hws ih =>
    have hcalls : (m :: ms).length + calls = ms.length + calls + 1 := by
      rw [List.length_cons]
      omega
    rw [hcalls, List.flatten_cons, List.append_assoc, openFronts_envelope hw, ih]
    rfl

/-- A cut falls into an envelope, or in front of its first byte. Behind the last one of the stream
that is any envelope at all. -/
theorem exists_cut {ws : List Bytes} {ms : List Message} (h : List.Forall₂ Envelope ws ms)
    {j : Nat} (hj : j ≤ ws.flatten.length) : ∃ n ≤ ms.length, ∃ rest w m,
      ws.flatten.take j = (ws.take n).flatten ++ rest ∧ Envelope w m ∧ rest <+: w ∧ rest ≠ w ∧
        ∀ i ≤ ms.length, (ws.take i).flatten.length ≤ j ↔ i ≤ n := by
  induction h generalizing j with
  | nil =>
    refine ⟨0, Nat.le_refl 0, [], _, ⟨0, none, []⟩, by simp, .unnumbered 0 [] (by decide),
      List.nil_prefix, nofun, fun i hi => ?_⟩
    obtain rfl := Nat.le_zero.1 hi
    simp
  | @cons w m ws ms hw hws ih =>
    rcases Nat.lt_or_ge j w.length with hlt | hge
    · -- The cut is inside the first envelope.
      refine ⟨0, Nat.zero_le _, w.take j, w, m, ?_, hw, List.take_prefix j w, fun heq => ?_,
        fun i _ => ?_⟩
      · rw [List.flatten_cons, List.take_append_of_le_length (Nat.le_of_lt hlt)]
        rfl
      · have hlen := congrArg List.length heq
        rw [List.length_take_of_le (Nat.le_of_lt hlt)] at hlen
        omega
      · cases i with
        | zero => simp
        | succ i =>
          rw [List.take_succ_cons, List.flatten_cons, List.length_append]
          omega
    · rw [List.flatten_cons, List.length_append] at hj
      obtain ⟨n, hn, rest, w', m', hcut, hw', hprefix, hne, hwhole⟩ :=
        ih (j := j - w.length) (by omega)
      refine ⟨n + 1, Nat.succ_le_succ hn, rest, w', m', ?_, hw', hprefix, hne, fun i hi => ?_⟩
      · rw [List.flatten_cons, List.take_append, List.take_of_length_le hge, hcut,
          List.take_succ_cons, List.flatten_cons, List.append_assoc]
      · cases i with
        | zero => simp
        | succ i =>
          have hi' := hwhole i (Nat.le_of_succ_le_succ hi)
          rw [List.take_succ_cons, List.flatten_cons, List.length_append]
          omega

/-- As many calls as there are envelopes in front open just these. -/
theorem openFronts_take_append [Defaults] {ws : List Bytes} {ms : List Message}
    (h : List.Forall₂ Envelope ws ms) {n : Nat} (hn : n ≤ ms.length) (calls : Nat) (rest : Bytes) :
    openFronts (n + calls) ((ws.take n).flatten ++ rest) =
      ⟨ms.take n ++ (openFronts calls rest).messages, (openFronts calls rest).rest,
        (openFronts calls rest).error?⟩ := by
  have hrun := openFronts_envelopes (List.forall₂_take n h) calls rest
  rwa [List.length_take_of_le hn] at hrun

/-- In front of bytes that do not open, no calls bring out more than the envelopes hold. -/
theorem messages_openFronts [Defaults] {ws : List Bytes} {ms : List Message}
    (h : List.Forall₂ Envelope ws ms) {rest : Bytes} {e : PeerError}
    (hrest : (ofFront rest).result = .error e) (calls : Nat) :
    (openFronts calls (ws.flatten ++ rest)).messages = ms.take calls := by
  induction h generalizing calls with
  | nil =>
    rw [List.flatten_nil, List.nil_append, List.take_nil]
    cases calls with
    | zero => rfl
    | succ calls => rw [openFronts, hrest]
  | @cons w m ws ms hw hws ih =>
    cases calls with
    | zero => rfl
    | succ calls =>
      rw [List.flatten_cons, List.append_assoc, openFronts_envelope hw, ih, List.take_succ_cons]

/-! ## Streams -/

/-- Messages whose payloads fit their lengths are written and opened one after the other, with as
many calls as there are messages and nothing left. If the stream is cut off after `j` bytes, those
messages are opened that lie wholly in front of the cut. Either the cut is between two messages, or
the next call fails for want of bytes. However many calls are made, no other messages come out. -/
theorem openFronts_take [Defaults] (ms : List Message)
    (h : ∀ m ∈ ms, m.data.length < BigEndian.capacity 4) :
    ∃ ws : List Bytes, ms.map toBytes = ws.map .ok ∧
      openFronts ms.length ws.flatten = ⟨ms, [], none⟩ ∧
      ∀ j ≤ ws.flatten.length, ∃ n ≤ ms.length,
        let size (i : Nat) := (ws.take i).flatten.length
        let cut := ws.flatten.take j
        let rest := cut.drop (size n)
        (∀ i ≤ ms.length, size i ≤ j ↔ i ≤ n) ∧
        openFronts n cut = ⟨ms.take n, rest, none⟩ ∧
        (j = size n ∧ rest = [] ∨ size n < j ∧ ∃ needed remaining, openFronts (n + 1) cut =
          ⟨ms.take n, rest, some (.codec (.insufficientBytes needed remaining))⟩) ∧
        ∀ calls, (openFronts calls cut).messages = ms.take (min calls n) := by
  obtain ⟨ws, hwrites, hws⟩ := exists_envelopes h
  refine ⟨ws, hwrites, ?_, fun j hj => ?_⟩
  · have hall := openFronts_envelopes hws 0 []
    rwa [List.append_nil, Nat.add_zero, openFronts, List.append_nil] at hall
  · obtain ⟨n, hn, rest, w, m, hcut, hw, hprefix, hne, hwhole⟩ := exists_cut hws hj
    obtain ⟨needed, remaining, hfail⟩ := ofFront_of_prefix hw hprefix hne
    have hstop : openFronts 1 rest =
        ⟨[], rest, some (.codec (.insufficientBytes needed remaining))⟩ := by
      rw [openFronts, hfail]
    have hsize : j = (ws.take n).flatten.length + rest.length := by
      have hlen := congrArg List.length hcut
      rwa [List.length_take_of_le hj, List.length_append] at hlen
    refine ⟨n, hn, hwhole, ?_⟩
    dsimp only
    rw [hcut, List.drop_left]
    refine ⟨?_, ?_, fun calls => ?_⟩
    · have hopen := openFronts_take_append hws hn 0 rest
      rwa [openFronts, List.append_nil] at hopen
    · rcases Nat.eq_zero_or_pos rest.length with hzero | hpos
      · exact .inl ⟨by omega, List.eq_nil_of_length_eq_zero hzero⟩
      · refine .inr ⟨by omega, needed, remaining, ?_⟩
        rw [openFronts_take_append hws hn, hstop, List.append_nil]
    · rw [messages_openFronts (List.forall₂_take n hws) hfail, List.take_take]

section

attribute [local instance] Defaults.zero

/-- A message with an id and one without, cut off in the length of the second. -/
theorem openFronts_take_second_length :
    let ms : List Message := [⟨1, some 0x0102, [0xaa]⟩, ⟨43, none, []⟩]
    let w : Bytes := [1, 1, 1, 2, 0, 0, 0, 1, 0xaa, 43, 0, 0, 0, 0, 0]
    openFronts 2 w = ⟨ms, [], none⟩ ∧ (∀ calls, (openFronts calls (w.take 12)).messages <+: ms) ∧
    openFronts 2 (w.take 12) =
      ⟨ms.take 1, [43, 0, 0], some (.codec (.insufficientBytes 4 1))⟩ := by
  intro ms w
  have hdata : ∀ m ∈ ms, m.data.length < BigEndian.capacity 4 := by decide
  obtain ⟨ws, hwrites, hall, hcuts⟩ := openFronts_take ms hdata
  have hw : ws.flatten = w := by
    have hmap : ms.map toBytes =
        [[1, 1, 1, 2, 0, 0, 0, 1, 0xaa], [43, 0, 0, 0, 0, 0]].map .ok := by decide +kernel
    rw [List.map_injective_iff.2 (fun _ _ => Except.ok.inj) (hwrites.symm.trans hmap)]
    rfl
  rw [hw] at hall hcuts
  obtain ⟨n, -, -, -, -, hcalls⟩ := hcuts 12 (by decide)
  refine ⟨hall, fun calls => ?_, by decide +kernel⟩
  rw [hcalls]
  exact List.take_prefix _ ms

end

end PeerWire.Message
