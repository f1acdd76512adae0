import PeerWire.Proofs.Cursors
import PeerWire.Proofs.Writing

/-!
# Text and lists of bytes

Text and a list of bytes have one wire form, a 32-bit count and the bytes. Text is read in one
piece, after a check of its length; a list of bytes is checked for its count and then read element
by element. The check of the count leaves no element that could fail, so the two readers are the
same reader of a block (`Reader.list_u8_eq_take`) but for what is made of the block. Main statement:
`run_text_agrees_with_bytes`.
-/

namespace PeerWire

/-! ## Reading -/

namespace Reader

theorem times_u8_of_le {n : Nat} {input : Bytes} (h : n ≤ input.length) :
    times u8 n input = take n input := by
  rw [take_of_le h, times_u8_eq_ok]
  exact ⟨List.length_take_of_le h, (List.take_append_drop n input).symm, rfl⟩

/-- What the check of a count refuses is what the reader of a block would refuse. -/
theorem list_u8_eq_take : list .u8 u8 = (do take (← length)) := by
  rw [list_eq]
  congr 1
  funext count
  ext input
  rw [reserve_bind]
  by_cases h : count > input.length
  · rw [if_pos h, take_short h]
  · rw [if_neg h, times_u8_of_le (Nat.not_lt.1 h)]

theorem text_eq_list_u8 : text = (do
    let bytes ← list .u8 u8
    if let some defect := Utf8.defect? bytes then report (.repairedText defect)
    return Utf8.decodeLossy bytes) := by
  rw [list_u8_eq_take, bind_assoc]
  rfl

theorem text_of_list_u8 {input rest bs : Bytes} {es : List Event}
    (h : list .u8 u8 input = ⟨.ok bs, rest, es⟩) :
    text input = ⟨.ok (Utf8.decodeLossy bs), rest, Event.ofText bs⟩ := by
  obtain ⟨hlen, rfl, rfl⟩ := list_u8_eq_ok.1 h
  exact text_append hlen rest

theorem text_of_list_u8_error {input rest : Bytes} {e : WireError} {es : List Event}
    (h : list .u8 u8 input = ⟨.error e, rest, es⟩) : text input = ⟨.error e, rest, es⟩ := by
  rw [text_eq_list_u8]
  exact bind_eq_error.2 (.inl h)

end Reader

namespace Cursor

/-- From the cursor, text and a list of bytes are read alike: both readers want the same bytes in
vain, or both read the same bytes, which behind their count are also those of a block. -/
def ReadsAlike {α β : Type} {γ : Nat → Type} (c : Cursor) (text : Reader α) (list : Reader β)
    (block : (n : Nat) → Reader (γ n)) (ofText : String → α) (ofList : Bytes → β)
    (ofBlock : (bs : Bytes) → γ bs.length) : Prop :=
  (c.run text).2 = (c.run list).2 ∧
  ((∃ needed remaining,
      (c.run text).1 = ⟨.error (.insufficientBytes needed remaining), []⟩ ∧
      (c.run list).1 = ⟨.error (.insufficientBytes needed remaining), []⟩) ∨
    ∃ bs : Bytes,
      (c.run text).1 = ⟨.ok (ofText (Utf8.decodeLossy bs)), Event.ofText bs⟩ ∧
      (c.run list).1 = ⟨.ok (ofList bs), []⟩ ∧
      (⟨c.buffer, c.position + 4⟩ : Cursor).run (block bs.length) =
        (⟨.ok (ofBlock bs), []⟩, (c.run list).2))

theorem run_map {α β : Type} (c : Cursor) (f : α → β) (r : Reader α) :
    c.run (f <$> r) = ((c.run r).1.map f, (c.run r).2) := by
  unfold run
  rw [Reader.map_apply]
  rfl

theorem run_block_behind_count {c : Cursor} {bs rest : Bytes}
    (h : c.rest = BigEndian.encode 4 bs.length ++ (bs ++ rest)) :
    (⟨c.buffer, c.position + 4⟩ : Cursor).run (Reader.block bs.length) =
      (⟨.ok ⟨bs, rfl⟩, []⟩, ⟨c.buffer, c.position + (c.remaining - rest.length)⟩) := by
  have hrest : (⟨c.buffer, c.position + 4⟩ : Cursor).rest = bs ++ rest := by
    calc (⟨c.buffer, c.position + 4⟩ : Cursor).rest = c.rest.drop 4 := List.drop_drop.symm
      _ = bs ++ rest := by rw [h, List.drop_left' (BigEndian.length_encode 4 bs.length)]
  have hlen : c.remaining = 4 + (bs.length + rest.length) := by
    rw [← length_rest, h, List.length_append, List.length_append, BigEndian.length_encode]
  have hread := Reader.block_append ⟨bs, rfl⟩ rest
  rw [← hrest] at hread
  rw [run_of_eq hread, ← length_rest, hrest, List.length_append, hlen]
  show (_, Cursor.mk _ (c.position + 4 + _)) = _
  congr 2
  omega

theorem readsAlike (c : Cursor) : c.ReadsAlike Reader.text (Reader.list .u8 Reader.u8) Reader.block
    id id (fun bs => ⟨bs, rfl⟩) := by
  rcases hlist : Reader.list .u8 Reader.u8 c.rest with ⟨e | bs, rest, es⟩
  · obtain ⟨needed, -, rfl, -⟩ := (Reader.Incremental.list .u8 .u8).of_error hlist
    obtain rfl : es = [] := by
      have hsilent := Reader.Silent.list .u8 .u8 c.rest
      rwa [hlist] at hsilent
    rw [ReadsAlike, run_of_eq hlist, run_of_eq (Reader.text_of_list_u8_error hlist)]
    exact ⟨rfl, .inl ⟨needed, rest.length, rfl, rfl⟩⟩
  · obtain ⟨-, hinput, rfl⟩ := Reader.list_u8_eq_ok.1 hlist
    rw [ReadsAlike, run_of_eq hlist, run_of_eq (Reader.text_of_list_u8 hlist)]
    exact ⟨rfl, .inr ⟨bs, rfl, rfl, run_block_behind_count hinput⟩⟩

/-- What the three readers make of what they read has no part in it. -/
theorem ReadsAlike.map {α α' β β' : Type} {γ γ' : Nat → Type} {c : Cursor} {text : Reader α}
    {list : Reader β} {block : (n : Nat) → Reader (γ n)} {ofText : String → α} {ofList : Bytes → β}
    {ofBlock : (bs : Bytes) → γ bs.length} (h : c.ReadsAlike text list block ofText ofList ofBlock)
    (f : α → α') (g : β → β') (k : (n : Nat) → γ n → γ' n) :
    c.ReadsAlike (f <$> text) (g <$> list) (fun n => k n <$> block n) (f ∘ ofText) (g ∘ ofList)
      (fun bs => k bs.length (ofBlock bs)) := by
  obtain ⟨hcursor, hreports⟩ := h
  simp only [ReadsAlike, run_map]
  refine ⟨hcursor, hreports.imp ?_ ?_⟩
  · rintro ⟨needed, remaining, htext, hlist⟩
    exact ⟨needed, remaining, by rw [htext]; rfl, by rw [hlist]; rfl⟩
  · rintro ⟨bs, htext, hlist, hblock⟩
    exact ⟨bs, by rw [htext]; rfl, by rw [hlist]; rfl, by rw [hblock]; rfl⟩

end Cursor

/-! ## Writing -/

/-- Text of `n` bytes, the list of them and the block of them are written alike: text comes out as
the list does, in the same bytes or with the same refusal, and these are its length and the
block. -/
def Emission.WrittenAlike (n : Nat) (text list block : Emission) : Prop :=
  (∀ before, (⟨before, none⟩ : Sink).put text = (⟨before, none⟩ : Sink).put list) ∧
  (∀ e, text.toExcept = .ok e ↔ n < BigEndian.capacity 4 ∧
    ∃ w, block.toExcept = .ok w ∧ e = BigEndian.encode 4 n ++ w) ∧
  (text.toExcept = .error (.lengthOverflow n) ↔ BigEndian.capacity 4 ≤ n)

namespace Emission

theorem text_of_overflow {s : String} (h : ¬ (Utf8.encode s).length < BigEndian.capacity 4) :
    text s = fail (.lengthOverflow (Utf8.encode s).length) := by
  rw [text, length, if_neg h, fail_append]

theorem list_of_overflow {items : List Emission}
    (h : ¬ items.length < BigEndian.capacity 4) :
    list items = fail (.lengthOverflow items.length) := by
  rw [list, length, if_neg h, fail_append]

theorem list_u8_of_overflow {bs : Bytes} (h : ¬ bs.length < BigEndian.capacity 4) :
    list (bs.map u8) = fail (.lengthOverflow bs.length) := by
  have hlen : (bs.map u8).length = bs.length := List.length_map u8
  rw [list_of_overflow (by rwa [hlen]), hlen]

theorem put_text (s : String) (before : Bytes) : (⟨before, none⟩ : Sink).put (text s) =
    (⟨before, none⟩ : Sink).put (list ((Utf8.encode s).map u8)) := by
  by_cases h : (Utf8.encode s).length < BigEndian.capacity 4
  · have htext := text_eq_ok.2 ⟨h, rfl⟩
    have hlist := list_u8_eq_ok.2 ⟨h, rfl⟩
    rw [Sink.put_unlimited, Sink.put_unlimited, htext, hlist, (toExcept_eq_ok.1 htext).2,
      (toExcept_eq_ok.1 hlist).2]
  · rw [text_of_overflow h, list_u8_of_overflow h]

theorem writtenAlike (s : String) : WrittenAlike (Utf8.encode s).length (text s)
    (list ((Utf8.encode s).map u8)) (write (Utf8.encode s)) := by
  refine ⟨put_text s, fun e => ?_, ?_⟩
  · rw [text_eq_ok]
    simp only [write_eq_ok, exists_eq_left]
  · by_cases h : (Utf8.encode s).length < BigEndian.capacity 4
    · rw [text_eq_ok.2 ⟨h, rfl⟩]
      simp [h]
    · rw [text_of_overflow h]
      exact ⟨fun _ => Nat.not_lt.1 h, fun _ => rfl⟩

end Emission

/-! ## Shapes and declared types -/

/-- Text is read from any cursor as the list of its bytes is, with the same failure or the same
bytes taken, and holds their repair; behind the count the same bytes are a block. It is written as
the list of its bytes, which is their count and the block of them. This holds of shapes and of
declared types. -/
theorem run_text_agrees_with_bytes [Defaults] :
    (∀ c : Cursor,
      c.ReadsAlike Shape.string.decode (Shape.list .u8).decode
        (fun n => (Shape.fixedBytes n).decode) .string (fun bs => .list (bs.map .u8)) .fixedBytes ∧
      c.ReadsAlike Ty.string.decode (Ty.list .u8).decode (fun n => (Ty.array n).decode)
        id id (fun bs => ⟨bs, rfl⟩)) ∧
    ∀ s : String, let bytes := Utf8.encode s
      Emission.WrittenAlike bytes.length ((Value.string s).encode .string)
        ((Value.list (bytes.map .u8)).encode (.list .u8))
        ((Value.fixedBytes bytes).encode (.fixedBytes bytes.length)) ∧
      Emission.WrittenAlike bytes.length (Ty.string.encode s) ((Ty.list .u8).encode bytes)
        ((Ty.array bytes.length).encode ⟨bytes, rfl⟩) := by
  refine ⟨fun c => ⟨?_, c.readsAlike⟩, fun s => ⟨?_, Emission.writtenAlike s⟩⟩
  · have htext : Shape.string.decode = Ty.string.image <$> Reader.text := Ty.string.decode_shape
    have hlist : (Shape.list .u8).decode = (Ty.list .u8).image <$> Reader.list .u8 Reader.u8 :=
      (Ty.list .u8).decode_shape
    have hblock (n : Nat) : (Shape.fixedBytes n).decode = (Ty.array n).image <$> Reader.block n :=
      (Ty.array n).decode_shape
    simp only [htext, hlist, hblock]
    exact c.readsAlike.map Ty.string.image (Ty.list .u8).image fun n => (Ty.array n).image
  · have hstatic : Emission.WrittenAlike (Utf8.encode s).length (Ty.string.encode s)
        ((Ty.list .u8).encode (Utf8.encode s))
        ((Ty.array (Utf8.encode s).length).encode ⟨Utf8.encode s, rfl⟩) := Emission.writtenAlike s
    rw [← Ty.encode_image, ← Ty.encode_image, ← Ty.encode_image] at hstatic
    exact hstatic

/-- A text whose second byte starts no character, and the list of its bytes; one byte is left. -/
example :
    let c : Cursor := ⟨[7, 0, 0, 0, 2, 0x61, 0xff, 9], 1⟩
    (c.run Reader.text).1.result = .ok "a\uFFFD" ∧
    (c.run (Reader.list .u8 Reader.u8)).1.result = .ok [0x61, 0xff] ∧
    (c.run Reader.text).2 = ⟨c.buffer, 7⟩ := by decide +kernel

end PeerWire
