import PeerWire.Primitive

/-!
# What writers put

For each writer of the primitive layer, when it ends without a fault and which bytes it has put by
then (`_eq_ok`). The bytes of joined emissions are joined, provided that both end well
(`append_eq_ok`).
-/

namespace PeerWire.Emission

theorem toExcept_eq_ok {a : Emission} {w : Bytes} :
    a.toExcept = .ok w ↔ a.fault? = none ∧ a.bytes = w := by
  unfold toExcept
  cases a.fault? <;> simp

theorem append_eq_ok {a b : Emission} {w : Bytes} :
    (a ++ b).toExcept = .ok w ↔
      ∃ w₁ w₂, a.toExcept = .ok w₁ ∧ b.toExcept = .ok w₂ ∧ w = w₁ ++ w₂ := by
  rcases a with ⟨ws, _ | e⟩
  · rcases b with ⟨vs, _ | e⟩
    · simp [toExcept, append_def, append, bytes, eq_comm]
    · simp [toExcept, append_def, append]
  · simp [toExcept, append_def, append]

theorem done_eq_ok {w : Bytes} : done.toExcept = .ok w ↔ w = [] := by
  simp [toExcept, done, bytes, eq_comm]

theorem write_eq_ok {chunk w : Bytes} : (write chunk).toExcept = .ok w ↔ w = chunk := by
  simp [toExcept, write, bytes, eq_comm]

theorem fail_eq_ok {e : WireError} {w : Bytes} : (fail e).toExcept = .ok w ↔ False := by
  simp [toExcept, fail]

theorem length_eq_ok {n : Nat} {w : Bytes} :
    (length n).toExcept = .ok w ↔ n < BigEndian.capacity 4 ∧ w = BigEndian.encode 4 n := by
  unfold length
  by_cases h : n < BigEndian.capacity 4
  · rw [if_pos h, write_eq_ok]
    exact ⟨fun hw => ⟨h, hw⟩, fun hw => hw.2⟩
  · rw [if_neg h, fail_eq_ok]
    exact ⟨False.elim, fun hw => h hw.1⟩

theorem text_eq_ok {s : String} {w : Bytes} :
    (text s).toExcept = .ok w ↔ (Utf8.encode s).length < BigEndian.capacity 4 ∧
      w = BigEndian.encode 4 (Utf8.encode s).length ++ Utf8.encode s := by
  rw [text, append_eq_ok]
  constructor
  · rintro ⟨w₁, w₂, hlen, hbytes, rfl⟩
    obtain ⟨h, rfl⟩ := length_eq_ok.1 hlen
    obtain rfl := write_eq_ok.1 hbytes
    exact ⟨h, rfl⟩
  · rintro ⟨h, rfl⟩
    exact ⟨_, _, length_eq_ok.2 ⟨h, rfl⟩, write_eq_ok.2 rfl, rfl⟩

theorem concat_append (as bs : List Emission) : concat (as ++ bs) = concat as ++ concat bs := by
  induction as with
  | nil => rfl
  | cons a as ih => rw [List.cons_append, concat, concat, ih, append_assoc]

theorem concat_u8_eq_ok {bs w : Bytes} : (concat (bs.map u8)).toExcept = .ok w ↔ w = bs := by
  induction bs generalizing w with
  | nil => exact done_eq_ok
  | cons b bs ih =>
    rw [List.map_cons, concat, append_eq_ok]
    constructor
    · rintro ⟨w₁, w₂, h₁, h₂, rfl⟩
      rw [write_eq_ok.1 h₁, ih.1 h₂, BigEndian.encode_one, List.singleton_append]
    · rintro rfl
      exact ⟨[b], bs, write_eq_ok.2 (BigEndian.encode_one b).symm, ih.2 rfl, rfl⟩

theorem list_u8_eq_ok {bs w : Bytes} :
    (list (bs.map u8)).toExcept = .ok w ↔
      bs.length < BigEndian.capacity 4 ∧ w = BigEndian.encode 4 bs.length ++ bs := by
  rw [list, append_eq_ok, List.length_map]
  constructor
  · rintro ⟨w₁, w₂, h₁, h₂, rfl⟩
    obtain ⟨hlen, rfl⟩ := length_eq_ok.1 h₁
    exact ⟨hlen, by rw [concat_u8_eq_ok.1 h₂]⟩
  · rintro ⟨hlen, rfl⟩
    exact ⟨_, bs, length_eq_ok.2 ⟨hlen, rfl⟩, concat_u8_eq_ok.2 rfl, rfl⟩

/-! ## Deliveries on record -/

theorem deliverFrom_recording {σ : Type} (dest : Destination σ) (fault? : Option WireError)
    (ws : List Bytes) (s : σ) (before : List Bytes) :
    ∃ offered, offered <+: ws ∧ deliverFrom dest.recording fault? ws (s, before) =
      ((deliverFrom dest fault? ws s).1, (deliverFrom dest fault? ws s).2, before ++ offered) := by
  induction ws generalizing s before with
  | nil =>
    refine ⟨[], List.nil_prefix, ?_⟩
    cases fault? <;> simp [deliverFrom]
  | cons w ws ih =>
    rcases hd : dest s w with ⟨_ | _, s'⟩
    · exact ⟨[w], ⟨ws, rfl⟩, by simp [deliverFrom, Destination.recording, hd]⟩
    · obtain ⟨offered, ⟨left, rfl⟩, h⟩ := ih s' (before ++ [w])
      refine ⟨w :: offered, ⟨left, rfl⟩, ?_⟩
      simp [deliverFrom, Destination.recording, hd, h]

/-- The record changes nothing in a delivery, and what it holds is how far the delivery came. -/
theorem deliver_recording {σ : Type} (a : Emission) (dest : Destination σ) (s : σ) :
    ∃ offered, offered <+: a.writes ∧ a.deliver dest.recording (s, []) =
      ((a.deliver dest s).1, (a.deliver dest s).2, offered) :=
  deliverFrom_recording dest a.fault? a.writes s []

end PeerWire.Emission

namespace PeerWire.Sink

/-- A buffer without a limit takes all that is written before a fault, behind what it holds. -/
theorem put_unlimited (a : Emission) (before : Bytes) :
    (⟨before, none⟩ : Sink).put a =
      (a.toExcept.map fun _ => (), ⟨before ++ a.bytes, none⟩) := by
  rcases a with ⟨ws, fault?⟩
  unfold put Emission.deliver Emission.toExcept Emission.bytes
  induction ws generalizing before with
  | nil => cases fault? <;> simp [Emission.deliverFrom, Except.map]
  | cons w ws ih =>
    simp only [Emission.deliverFrom, accept, ih, List.flatten_cons, List.append_assoc]
    cases fault? <;> rfl

end PeerWire.Sink
