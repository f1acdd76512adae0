import PeerWire.Proofs.Reading

/-!
# Readers of growing inputs

An incremental reader takes its input from the front and never looks at where it ends, but to see
whether there are enough bytes. So what it has read stays read when the input grows, and where it
fails it says what it lacks: it fails in the same way until that many more bytes have come. All
readers of the primitive layer are incremental, and so is what is put together from incremental
readers.
-/

namespace PeerWire.Reader

variable {α β : Type}

/-- The one way in which a reading can fail: `needed` bytes are wanted of the fewer that are left.
The failure stays as it is until the bytes that are missing have come. -/
def RunsShort (r : Reader α) (input rest : Bytes) (e : WireError) (es : List Event) : Prop :=
  ∃ needed, rest.length < needed ∧ e = .insufficientBytes needed rest.length ∧
    ∀ more : Bytes, more.length < needed - rest.length → r (input ++ more) =
      ⟨.error (.insufficientBytes needed (rest.length + more.length)), rest ++ more, es⟩

structure Incremental (r : Reader α) : Prop where
  rest_suffix (input : Bytes) : (r input).rest <:+ input
  of_ok {input rest : Bytes} {a : α} {es : List Event} (h : r input = ⟨.ok a, rest, es⟩)
    (more : Bytes) : r (input ++ more) = ⟨.ok a, rest ++ more, es⟩
  of_error {input rest : Bytes} {e : WireError} {es : List Event}
    (h : r input = ⟨.error e, rest, es⟩) : r.RunsShort input rest e es

namespace Incremental

/-- A reader that takes nothing and always succeeds. -/
theorem of_forall_eq_ok {r : Reader α} {a : α} {es : List Event}
    (h : ∀ input, r input = ⟨.ok a, input, es⟩) : r.Incremental where
  rest_suffix input := by simp only [h, List.suffix_rfl]
  of_ok hok more := by
    rw [h] at hok ⊢
    cases hok
    rfl
  of_error herr := by
    rw [h] at herr
    cases herr

theorem pure (a : α) : (pure a : Reader α).Incremental := of_forall_eq_ok fun _ => rfl

theorem report (e : Event) : (report e).Incremental := of_forall_eq_ok fun _ => rfl

theorem bind {r : Reader α} {f : α → Reader β} (hr : r.Incremental)
    (hf : ∀ a, (f a).Incremental) : (r >>= f).Incremental where
  rest_suffix input := by
    have hmid := hr.rest_suffix input
    rcases ha : r input with ⟨e | a, mid, es⟩
    · rw [bind_eq_error.2 (.inl ha)]
      rwa [ha] at hmid
    · rw [bind_of_ok ha]
      rw [ha] at hmid
      exact ((hf a).rest_suffix mid).trans hmid
  of_ok h more := by
    obtain ⟨a, mid, es₁, es₂, ha, hb, rfl⟩ := bind_eq_ok.1 h
    exact bind_eq_ok.2 ⟨a, mid ++ more, es₁, es₂, hr.of_ok ha more, (hf a).of_ok hb more, rfl⟩
  of_error h := by
    rcases bind_eq_error.1 h with ha | ⟨a, mid, es₁, es₂, ha, hb, rfl⟩
    · obtain ⟨needed, hlt, he, hmore⟩ := hr.of_error ha
      exact ⟨needed, hlt, he, fun more hlen => bind_eq_error.2 (.inl (hmore more hlen))⟩
    · obtain ⟨needed, hlt, he, hmore⟩ := (hf a).of_error hb
      refine ⟨needed, hlt, he, fun more hlen => bind_eq_error.2 (.inr ?_)⟩
      exact ⟨a, mid ++ more, es₁, es₂, hr.of_ok ha more, hmore more hlen, rfl⟩

/-- A check that some number of bytes is left, in front of a reader. -/
theorem of_room {r : Reader α} (hr : r.Incremental) {r' : Reader α} {n : Nat}
    (h : ∀ input, r' input =
      if n > input.length then ⟨.error (.insufficientBytes n input.length), input, []⟩
      else r input) : r'.Incremental where
  rest_suffix input := by
    rw [h]
    split
    · exact List.suffix_rfl
    · exact hr.rest_suffix input
  of_ok {input rest a es} hok more := by
    rw [h] at hok ⊢
    split at hok
    · cases hok
    · rename_i hn
      have hn' : ¬ n > (input ++ more).length := by
        rw [List.length_append]
        omega
      rw [if_neg hn']
      exact hr.of_ok hok more
  of_error {input rest e es} herr := by
    rw [h] at herr
    split at herr
    · rename_i hn
      cases herr
      refine ⟨n, hn, rfl, fun more hlen => ?_⟩
      have hn' : n > (input ++ more).length := by
        rw [List.length_append]
        omega
      rw [h, if_pos hn', List.length_append]
    · rename_i hn
      obtain ⟨needed, hlt, he, hmore⟩ := hr.of_error herr
      refine ⟨needed, hlt, he, fun more hlen => ?_⟩
      have hn' : ¬ n > (input ++ more).length := by
        rw [List.length_append]
        omega
      rw [h, if_neg hn']
      exact hmore more hlen

/-! ## The primitive layer -/

theorem take (n : Nat) : (take n).Incremental where
  rest_suffix input := by
    rcases Nat.lt_or_ge input.length n with hn | hn
    · simp only [take_short hn, List.suffix_rfl]
    · rw [take_of_le hn]
      exact List.drop_suffix n input
  of_ok h more := by
    obtain ⟨hlen, rfl, rfl⟩ := take_eq_ok.1 h
    exact take_eq_ok.2 ⟨hlen, List.append_assoc _ _ _, rfl⟩
  of_error {input rest e es} h := by
    rcases Nat.lt_or_ge input.length n with hn | hn
    · rw [take_short hn] at h
      cases h
      refine ⟨n, hn, rfl, fun more hlen => ?_⟩
      have hn' : (input ++ more).length < n := by
        rw [List.length_append]
        omega
      rw [take_short hn', List.length_append]
    · rw [take_of_le hn] at h
      cases h

theorem number (width : Nat) : (number width).Incremental := (take width).bind fun _ => pure _

theorem u8 : u8.Incremental := (number 1).bind fun _ => pure _

theorem u16 : u16.Incremental := (number 2).bind fun _ => pure _

theorem u32 : u32.Incremental := (number 4).bind fun _ => pure _

theorem u64 : u64.Incremental := (number 8).bind fun _ => pure _

theorem flag : flag.Incremental := by
  refine u8.bind fun byte => ?_
  dsimp only
  split
  · exact (report _).bind fun _ => pure _
  · exact pure _

theorem length : length.Incremental := u32.bind fun _ => pure _

theorem text : text.Incremental := by
  refine length.bind fun n => (take n).bind fun bytes => ?_
  dsimp only
  split
  · exact (report _).bind fun _ => pure _
  · exact pure _

/-! ## Sequences -/

theorem mapM {ι : Type} {f : ι → Reader α} {is : List ι} (h : ∀ i ∈ is, (f i).Incremental) :
    (is.mapM f).Incremental := by
  induction is with
  | nil =>
    rw [List.mapM_nil]
    exact pure []
  | cons i is ih =>
    rw [List.mapM_cons]
    have htail := ih fun j hj => h j (List.mem_cons_of_mem _ hj)
    exact (h i List.mem_cons_self).bind fun a => htail.bind fun as => pure (a :: as)

theorem times {element : Reader α} (h : element.Incremental) (count : Nat) :
    (times element count).Incremental := by
  induction count with
  | zero => exact pure []
  | succ count ih => exact h.bind fun a => ih.bind fun as => pure (a :: as)

/-- The room made for the elements depends on where the input ends; what is read does not. -/
theorem list (shape : Shape) {element : Reader α} (h : element.Incremental) :
    (list shape element).Incremental := by
  rw [list_eq]
  exact length.bind fun count => (h.times count).of_room (reserve_bind shape count _)

end Incremental

end PeerWire.Reader
