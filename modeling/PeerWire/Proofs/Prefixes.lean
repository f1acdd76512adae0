import PeerWire.Proofs.Acceptance
import PeerWire.Proofs.Images
import PeerWire.Proofs.Incremental

/-!
# Prefixes and extensions of a buffer

The decoder of a shape on a buffer, on what the buffer starts with, and on the buffer with more
bytes behind it. A value ends where its own bytes say that it ends: no extension moves that place,
and on anything shorter the decoder runs out of bytes (`Shape.run_decode_self_delimiting`). The
bytes of the value alone are enough too, unless a list of empty elements needed the bytes behind
them to be covered. A failure names the bytes that it wants and those that are left, and no
extension that is too short to make up the difference changes it (`run_decode_reads_or_runs_short`).
-/

namespace PeerWire

/-! ## The decoders are incremental -/

theorem Shape.incremental_decode (k : Shape) : k.decode.Incremental := by
  induction k using Shape.induction with
  | u8 =>
    rw [decode]
    exact Reader.Incremental.u8.bind fun _ => .pure _
  | u16 =>
    rw [decode]
    exact Reader.Incremental.u16.bind fun _ => .pure _
  | u32 =>
    rw [decode]
    exact Reader.Incremental.u32.bind fun _ => .pure _
  | u64 =>
    rw [decode]
    exact Reader.Incremental.u64.bind fun _ => .pure _
  | bool =>
    rw [decode]
    exact Reader.Incremental.flag.bind fun _ => .pure _
  | fixedBytes size =>
    rw [decode]
    exact (Reader.Incremental.take size).bind fun _ => .pure _
  | string =>
    rw [decode]
    exact Reader.Incremental.text.bind fun _ => .pure _
  | list element ih =>
    rw [decode]
    exact (Reader.Incremental.list element ih).bind fun _ => .pure _
  | optional inner ih =>
    rw [decode]
    refine Reader.Incremental.flag.bind fun b => ?_
    cases b with
    | false => exact .pure _
    | true => exact ih.bind fun _ => .pure _
  | record name fields ih =>
    rw [decode, decodeFields_eq]
    exact (Reader.Incremental.mapM ih).bind fun _ => .pure _

namespace Cursor

variable {α β : Type}

/-- The reader reads a value, or it wants more bytes than there are behind the place where it stops.
Fewer bytes than are missing, put at the end of the buffer, are only counted in. -/
def ReadsOrRunsShort (buffer : Bytes) (r : Reader α) : Prop :=
  let reading := (ofBytes buffer).run r
  let remaining := reading.2.remaining
  (∃ a, reading.1.result = .ok a) ∨
  ∃ needed, reading.1.result = .error (.insufficientBytes needed remaining) ∧ remaining < needed ∧
    ∀ more : Bytes, more.length < needed - remaining →
      (ofBytes (buffer ++ more)).run r =
        (⟨.error (.insufficientBytes needed (remaining + more.length)), reading.1.events⟩,
          ⟨buffer ++ more, reading.2.position⟩)

/-- What becomes of the values that are read has no part in it. -/
theorem readsOrRunsShort_of_map {r : Reader α} (f : α → β) (h : (f <$> r).Incremental)
    (buffer : Bytes) : ReadsOrRunsShort buffer r := by
  have hsuffix := h.rest_suffix buffer
  rw [Reader.map_apply] at hsuffix
  have hlen := hsuffix.length_le
  unfold ReadsOrRunsShort
  rw [run_ofBytes]
  rcases hr : r buffer with ⟨e | a, rest, es⟩
  · rw [hr] at hlen
    obtain ⟨needed, hlt, rfl, hmore⟩ := h.of_error (Reader.map_eq_error.2 hr)
    have hremaining : buffer.length - (buffer.length - rest.length) = rest.length :=
      Nat.sub_sub_self hlen
    refine .inr ⟨needed, ?_, ?_, fun more hlen => ?_⟩
    · simp only [remaining, hremaining]
    · simpa only [remaining, hremaining]
    · simp only [remaining, hremaining] at hlen ⊢
      rw [run_ofBytes, Reader.map_eq_error.1 (hmore more hlen), List.length_append,
        List.length_append, Nat.add_sub_add_right]
  · exact .inl ⟨a, rfl⟩

end Cursor

/-- Decoding, driven by a shape or by a declared type, fails only for want of bytes, and exactly so:
the failure tells the bytes wanted and the bytes left, and it is the same on every extension of the
buffer that does not make up for the difference. -/
theorem run_decode_reads_or_runs_short [Defaults] :
    (∀ (k : Shape) (buffer : Bytes), Cursor.ReadsOrRunsShort buffer k.decode) ∧
    (∀ (t : Ty) (buffer : Bytes), Cursor.ReadsOrRunsShort buffer t.decode) := by
  refine ⟨fun k buffer => ?_, fun t buffer => ?_⟩
  · apply Cursor.readsOrRunsShort_of_map id
    rw [id_map]
    exact k.incremental_decode
  · apply Cursor.readsOrRunsShort_of_map t.image
    rw [← t.decode_shape]
    exact t.shape.incremental_decode

/-- Three of the five bytes of a text are missing, and one or two more do not help. -/
theorem run_decode_reads_or_runs_short_cut_text :
    let k : Shape := .record "Note" [⟨"open", 0, .bool⟩, ⟨"text", 1, .string⟩]
    let buffer : Bytes := [7, 0, 0, 0, 5, 0x61, 0x62]
    (Cursor.ofBytes buffer).run k.decode =
      (⟨.error (.insufficientBytes 5 2), [.looseFlag 7]⟩, ⟨buffer, 5⟩) ∧
    ∀ more : Bytes, more.length < 3 → (Cursor.ofBytes (buffer ++ more)).run k.decode =
      (⟨.error (.insufficientBytes 5 (2 + more.length)), [.looseFlag 7]⟩, ⟨buffer ++ more, 5⟩) := by
  intro k buffer
  have hrun : (Cursor.ofBytes buffer).run k.decode =
      (⟨.error (.insufficientBytes 5 2), [.looseFlag 7]⟩, ⟨buffer, 5⟩) := by
    decide +kernel
  refine ⟨hrun, fun more hlen => ?_⟩
  have hshort := (@run_decode_reads_or_runs_short Defaults.zero).1 k buffer
  unfold Cursor.ReadsOrRunsShort at hshort
  rw [hrun] at hshort
  rcases hshort with ⟨v, hv⟩ | ⟨needed, herr, -, hmore⟩
  · cases hv
  · cases herr
    exact hmore more hlen

/-! ## Where a value ends -/

namespace Shape

mutual
theorem fixedSize?_of_minSize_eq_zero : (k : Shape) → k.minSize = 0 → k.fixedSize? = some 0
  | .fixedBytes _, h => congrArg some h
  | .record _ fields, h => fieldsFixedSize?_of_fieldsMinSize_eq_zero fields h
theorem fieldsFixedSize?_of_fieldsMinSize_eq_zero : (fields : List Field) →
    fieldsMinSize fields = 0 → fieldsFixedSize? fields = some 0
  | [], _ => rfl
  | ⟨_, _, s⟩ :: fields, h => by
    obtain ⟨hs, hfields⟩ := Nat.add_eq_zero_iff.1 h
    rw [fieldsFixedSize?, fixedSize?_of_minSize_eq_zero s hs,
      fieldsFixedSize?_of_fieldsMinSize_eq_zero fields hfields]
    rfl
end

theorem decode_of_run {k : Shape} {buffer : Bytes} {v : Value} {c : Nat} {es : List Event}
    (h : (Cursor.ofBytes buffer).run k.decode = (⟨.ok v, es⟩, ⟨buffer, c⟩)) :
    k.decode buffer = ⟨.ok v, buffer.drop c, es⟩ := by
  obtain ⟨-, d, hd⟩ := exists_derivation_of_run h
  exact decode_eq_ok.2 ⟨_, d, hd⟩

theorem run_decode_append {k : Shape} {buffer : Bytes} {v : Value} {c : Nat} {es : List Event}
    (h : (Cursor.ofBytes buffer).run k.decode = (⟨.ok v, es⟩, ⟨buffer, c⟩)) (t : Bytes) :
    (Cursor.ofBytes (buffer ++ t)).run k.decode = (⟨.ok v, es⟩, ⟨buffer ++ t, c⟩) := by
  obtain ⟨hc, -⟩ := exists_derivation_of_run h
  have hlonger := k.incremental_decode.of_ok (decode_of_run h) t
  have hsplit : buffer ++ t = buffer.take c ++ (buffer.drop c ++ t) := by
    rw [← List.append_assoc, List.take_append_drop]
  rw [hsplit] at hlonger ⊢
  have hrun := Cursor.run_ofBytes_append hlonger
  rwa [List.length_take_of_le hc] at hrun

theorem run_decode_take_short {k : Shape} {buffer : Bytes} {v : Value} {c : Nat} {es : List Event}
    (h : (Cursor.ofBytes buffer).run k.decode = (⟨.ok v, es⟩, ⟨buffer, c⟩)) {j : Nat} (hj : j < c) :
    ∃ needed remaining, ((Cursor.ofBytes (buffer.take j)).run k.decode).1.result =
      .error (.insufficientBytes needed remaining) := by
  obtain ⟨hc, -⟩ := exists_derivation_of_run h
  have hk := k.incremental_decode
  rw [Cursor.run_ofBytes]
  rcases hshort : k.decode (buffer.take j) with ⟨e | v', rest, es'⟩
  · obtain ⟨needed, -, rfl, -⟩ := hk.of_error hshort
    exact ⟨needed, _, rfl⟩
  · -- A value read from less would be read from the whole buffer too, and end before `c`.
    have hwhole := hk.of_ok hshort (buffer.drop j)
    rw [List.take_append_drop, decode_of_run h] at hwhole
    have hrest : (buffer.drop c).length = (rest ++ buffer.drop j).length :=
      congrArg (fun reading => reading.rest.length) hwhole
    rw [List.length_append, List.length_drop, List.length_drop] at hrest
    omega

/-- A value that is read from a buffer is read in the same way from every extension. On a shorter
piece of the buffer the decoder runs out of bytes before the end of the value. The bytes of the
value alone are enough just if they cover the lists of empty elements that are in them. -/
theorem run_decode_self_delimiting (k : Shape) (buffer : Bytes) (v : Value) (c : Nat)
    (es : List Event) (h : (Cursor.ofBytes buffer).run k.decode = (⟨.ok v, es⟩, ⟨buffer, c⟩)) :
    (∀ t : Bytes,
      (Cursor.ofBytes (buffer ++ t)).run k.decode = (⟨.ok v, es⟩, ⟨buffer ++ t, c⟩)) ∧
    (∀ j < c, ∃ needed remaining, ((Cursor.ofBytes (buffer.take j)).run k.decode).1.result =
      .error (.insufficientBytes needed remaining)) ∧
    Nonempty (Derivation k (buffer.take c) v) ∧
    ∀ d : Derivation k (buffer.take c) v,
      ((Cursor.ofBytes (buffer.take c)).run k.decode = (⟨.ok v, es⟩, ⟨buffer.take c, c⟩) ↔
        ∀ l ∈ d.heads 0, l.element.fixedSize? = some 0 → l.count ≤ l.room) := by
  obtain ⟨hc, d₀, -⟩ := exists_derivation_of_run h
  have hlen : (buffer.take c).length = c := List.length_take_of_le hc
  refine ⟨run_decode_append h, fun j => run_decode_take_short h, ⟨d₀⟩, fun d => ?_⟩
  refine ⟨fun hexact l hl _ => ?_, fun hempty => ?_⟩
  · have hok : (k.decode (buffer.take c)).result = .ok v := by
      rw [Cursor.run_ofBytes] at hexact
      exact congrArg (fun run => run.1.result) hexact
    rw [← List.append_nil (buffer.take c)] at hok
    exact d.covered_of_decode hok l hl
  · have hall : ∀ l ∈ d.heads ([] : Bytes).length, l.Covered := by
      intro l hl
      rcases Nat.eq_zero_or_pos l.element.minSize with hzero | hpos
      · exact hempty l hl (fixedSize?_of_minSize_eq_zero _ hzero)
      · exact d.covered_of_mem_heads hl hpos
    have hread := d.decode_append [] hall
    -- What `d` reports is what was reported for the whole buffer.
    have hwhole := k.incremental_decode.of_ok hread (buffer.drop c)
    rw [List.append_nil, List.take_append_drop, decode_of_run h] at hwhole
    obtain rfl : es = d.events := congrArg Reading.events hwhole
    have hexact := Cursor.run_ofBytes_append hread
    rwa [List.append_nil, hlen] at hexact

/-- Seven empty elements need the byte behind the text. Without it they are one too many for the
bytes of the value. -/
theorem run_decode_self_delimiting_empty_elements_before_text :
    let k : Shape := .record "Run" [⟨"marks", 0, .list (.fixedBytes 0)⟩, ⟨"text", 1, .string⟩]
    let v : Value := .record [.list (List.replicate 7 (.fixedBytes [])), .string "\uFFFD("]
    let buffer : Bytes := [0, 0, 0, 7, 0, 0, 0, 2, 0xc3, 0x28, 0xff]
    let es : List Event := [.repairedText ⟨0, some 1⟩]
    (Cursor.ofBytes buffer).run k.decode = (⟨.ok v, es⟩, ⟨buffer, 10⟩) ∧
    (∀ t, (Cursor.ofBytes (buffer ++ t)).run k.decode = (⟨.ok v, es⟩, ⟨buffer ++ t, 10⟩)) ∧
    ((Cursor.ofBytes (buffer.take 10)).run k.decode).1.result =
      .error (.insufficientBytes 7 6) := by
  intro k v buffer es
  have hrun : (Cursor.ofBytes buffer).run k.decode = (⟨.ok v, es⟩, ⟨buffer, 10⟩) := by
    decide +kernel
  obtain ⟨hlonger, -, -⟩ := run_decode_self_delimiting k buffer v 10 es hrun
  exact ⟨hrun, hlonger, by decide +kernel⟩

end Shape

end PeerWire
