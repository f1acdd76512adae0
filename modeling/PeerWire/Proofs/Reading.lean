import PeerWire.Primitive

/-!
# What readers take

For each reader of the primitive layer, the inputs from which it reads a given value. Successes are
equivalences (`_eq_ok`): the input has to start with the bytes that spell the value. A list is read
as a count and that many elements (`times`), and the count is checked against all that follows it
(`list_append`).
-/

namespace PeerWire

namespace Event

/-- What the reader of a flag reports. -/
def ofFlag (byte : UInt8) : List Event := if byte > 1 then [looseFlag byte] else []

/-- What the reader of text reports. -/
def ofText (bytes : Bytes) : List Event := ((Utf8.defect? bytes).map repairedText).toList

end Event

namespace Reader

variable {α β : Type}

/-! ## Sequencing -/

theorem pure_eq_ok {a b : α} {input rest : Bytes} {es : List Event} :
    (pure a : Reader α) input = ⟨.ok b, rest, es⟩ ↔ a = b ∧ input = rest ∧ es = [] := by
  simp [pure_apply, eq_comm]

theorem bind_of_ok {r : Reader α} {f : α → Reader β} {input rest : Bytes} {a : α}
    {es : List Event} (h : r input = ⟨.ok a, rest, es⟩) :
    (r >>= f) input = ⟨(f a rest).result, (f a rest).rest, es ++ (f a rest).events⟩ := by
  rw [bind_apply, h]

theorem bind_of_error {r : Reader α} {f : α → Reader β} {input : Bytes} {e : WireError}
    (h : (r input).result = .error e) : ((r >>= f) input).result = .error e := by
  rw [bind_apply, h]

theorem bind_eq_ok {r : Reader α} {f : α → Reader β} {input rest : Bytes} {b : β}
    {es : List Event} :
    (r >>= f) input = ⟨.ok b, rest, es⟩ ↔
      ∃ a mid es₁ es₂, r input = ⟨.ok a, mid, es₁⟩ ∧ f a mid = ⟨.ok b, rest, es₂⟩ ∧
        es = es₁ ++ es₂ := by
  constructor
  · intro h
    rcases hr : r input with ⟨_ | a, mid, es₁⟩
    · rw [bind_apply, hr] at h
      cases h
    · rw [bind_of_ok hr] at h
      rcases hf : f a mid with ⟨_, _, es₂⟩
      rw [hf] at h
      cases h
      exact ⟨a, mid, es₁, es₂, rfl, hf, rfl⟩
  · rintro ⟨a, mid, es₁, es₂, hr, hf, rfl⟩
    rw [bind_of_ok hr, hf]

theorem bind_eq_error {r : Reader α} {f : α → Reader β} {input rest : Bytes} {e : WireError}
    {es : List Event} :
    (r >>= f) input = ⟨.error e, rest, es⟩ ↔ r input = ⟨.error e, rest, es⟩ ∨
      ∃ a mid es₁ es₂, r input = ⟨.ok a, mid, es₁⟩ ∧ f a mid = ⟨.error e, rest, es₂⟩ ∧
        es = es₁ ++ es₂ := by
  constructor
  · intro h
    rcases hr : r input with ⟨_ | a, mid, es₁⟩
    · rw [bind_apply, hr] at h
      cases h
      exact .inl rfl
    · rw [bind_of_ok hr] at h
      rcases hf : f a mid with ⟨_, _, es₂⟩
      rw [hf] at h
      cases h
      exact .inr ⟨a, mid, es₁, es₂, rfl, hf, rfl⟩
  · rintro (hr | ⟨a, mid, es₁, es₂, hr, hf, rfl⟩)
    · rw [bind_apply, hr]
    · rw [bind_of_ok hr, hf]

theorem map_apply (f : α → β) (r : Reader α) (input : Bytes) :
    (f <$> r) input = ⟨(r input).result.map f, (r input).rest, (r input).events⟩ := by
  rw [map_eq_pure_bind, bind_apply]
  rcases r input with ⟨_ | _, _, _⟩
  · rfl
  · simp [pure_apply, Except.map]

theorem map_eq_ok {f : α → β} {r : Reader α} {input rest : Bytes} {b : β} {es : List Event} :
    (f <$> r) input = ⟨.ok b, rest, es⟩ ↔ ∃ a, r input = ⟨.ok a, rest, es⟩ ∧ f a = b := by
  rw [map_apply]
  constructor
  · intro h
    rcases hr : r input with ⟨_ | a, _, _⟩
    · rw [hr] at h
      cases h
    · rw [hr] at h
      cases h
      exact ⟨a, rfl, rfl⟩
  · rintro ⟨a, hr, rfl⟩
    rw [hr, Except.map]

theorem map_eq_error {f : α → β} {r : Reader α} {input rest : Bytes} {e : WireError}
    {es : List Event} :
    (f <$> r) input = ⟨.error e, rest, es⟩ ↔ r input = ⟨.error e, rest, es⟩ := by
  rw [map_apply]
  rcases r input with ⟨_ | _, _, _⟩ <;> simp [Except.map]

theorem map_of_ok {r : Reader α} {input rest : Bytes} {a : α} {es : List Event} (f : α → β)
    (h : r input = ⟨.ok a, rest, es⟩) : (f <$> r) input = ⟨.ok (f a), rest, es⟩ :=
  map_eq_ok.2 ⟨a, h, rfl⟩

theorem map_of_error {f : α → β} {r : Reader α} {input : Bytes} {e : WireError}
    (h : (r input).result = .error e) : ((f <$> r) input).result = .error e := by
  rw [map_apply, h, Except.map]

/-! ## Numbers -/

theorem take_of_le {n : Nat} {input : Bytes} (h : n ≤ input.length) :
    take n input = ⟨.ok (input.take n), input.drop n, []⟩ := by
  have hread := take_append (input.take n) (input.drop n)
  rwa [List.length_take_of_le h, List.take_append_drop] at hread

theorem take_eq_ok {n : Nat} {input bs rest : Bytes} {es : List Event} :
    take n input = ⟨.ok bs, rest, es⟩ ↔ bs.length = n ∧ input = bs ++ rest ∧ es = [] := by
  constructor
  · intro h
    rcases Nat.lt_or_ge input.length n with hn | hn
    · rw [take_short hn] at h
      cases h
    · rw [take_of_le hn] at h
      cases h
      exact ⟨List.length_take_of_le hn, (List.take_append_drop n input).symm, rfl⟩
  · rintro ⟨rfl, rfl, rfl⟩
    exact take_append bs rest

theorem number_eq_ok {width n : Nat} {input rest : Bytes} {es : List Event} :
    number width input = ⟨.ok n, rest, es⟩ ↔
      n < BigEndian.capacity width ∧ input = BigEndian.encode width n ++ rest ∧ es = [] := by
  have hnum : number width = BigEndian.decode <$> take width := by simp [number]
  rw [hnum, map_eq_ok]
  constructor
  · rintro ⟨bs, h, rfl⟩
    obtain ⟨rfl, rfl, rfl⟩ := take_eq_ok.1 h
    exact ⟨BigEndian.decode_lt bs, by rw [BigEndian.encode_decode], rfl⟩
  · rintro ⟨hn, rfl, rfl⟩
    refine ⟨BigEndian.encode width n, take_eq_ok.2 ⟨BigEndian.length_encode width n, rfl, rfl⟩, ?_⟩
    rw [BigEndian.decode_encode, Nat.mod_eq_of_lt hn]

/-- A machine word of the given width, whatever type holds it. -/
theorem word_eq_ok {width : Nat} {ofNat : Nat → α} {toNat : α → Nat}
    (hlt : ∀ a, toNat a < BigEndian.capacity width) (hof : ∀ a, ofNat (toNat a) = a)
    (hto : ∀ n, n < BigEndian.capacity width → toNat (ofNat n) = n) {a : α} {input rest : Bytes}
    {es : List Event} :
    (do return ofNat (← number width) : Reader α) input = ⟨.ok a, rest, es⟩ ↔
      input = BigEndian.encode width (toNat a) ++ rest ∧ es = [] := by
  simp only [bind_pure_comp, map_eq_ok, number_eq_ok]
  constructor
  · rintro ⟨n, ⟨hn, rfl, rfl⟩, rfl⟩
    exact ⟨by rw [hto n hn], rfl⟩
  · rintro ⟨rfl, rfl⟩
    exact ⟨toNat a, ⟨hlt a, rfl, rfl⟩, hof a⟩

theorem u8_eq_ok {n : UInt8} {input rest : Bytes} {es : List Event} :
    u8 input = ⟨.ok n, rest, es⟩ ↔ input = BigEndian.encode 1 n.toNat ++ rest ∧ es = [] :=
  word_eq_ok UInt8.toNat_lt (fun _ => UInt8.ofNat_toNat) (fun _ => UInt8.toNat_ofNat_of_lt)

theorem u16_eq_ok {n : UInt16} {input rest : Bytes} {es : List Event} :
    u16 input = ⟨.ok n, rest, es⟩ ↔ input = BigEndian.encode 2 n.toNat ++ rest ∧ es = [] :=
  word_eq_ok UInt16.toNat_lt (fun _ => UInt16.ofNat_toNat) (fun _ => UInt16.toNat_ofNat_of_lt)

theorem u32_eq_ok {n : UInt32} {input rest : Bytes} {es : List Event} :
    u32 input = ⟨.ok n, rest, es⟩ ↔ input = BigEndian.encode 4 n.toNat ++ rest ∧ es = [] :=
  word_eq_ok UInt32.toNat_lt (fun _ => UInt32.ofNat_toNat) (fun _ => UInt32.toNat_ofNat_of_lt)

theorem u64_eq_ok {n : UInt64} {input rest : Bytes} {es : List Event} :
    u64 input = ⟨.ok n, rest, es⟩ ↔ input = BigEndian.encode 8 n.toNat ++ rest ∧ es = [] :=
  word_eq_ok UInt64.toNat_lt (fun _ => UInt64.ofNat_toNat) (fun _ => UInt64.toNat_ofNat_of_lt)

theorem length_eq_ok {n : Nat} {input rest : Bytes} {es : List Event} :
    length input = ⟨.ok n, rest, es⟩ ↔
      n < BigEndian.capacity 4 ∧ input = BigEndian.encode 4 n ++ rest ∧ es = [] := by
  have hlen : length = UInt32.toNat <$> u32 := by simp [length]
  rw [hlen, map_eq_ok]
  constructor
  · rintro ⟨n, h, rfl⟩
    exact ⟨n.toNat_lt, u32_eq_ok.1 h⟩
  · rintro ⟨hn, h⟩
    have hto : (UInt32.ofNat n).toNat = n := UInt32.toNat_ofNat_of_lt hn
    exact ⟨UInt32.ofNat n, u32_eq_ok.2 (by rwa [hto]), hto⟩

theorem length_append {n : Nat} (h : n < BigEndian.capacity 4) (rest : Bytes) :
    length (BigEndian.encode 4 n ++ rest) = ⟨.ok n, rest, []⟩ :=
  length_eq_ok.2 ⟨h, rfl, rfl⟩

/-! ## Flags and text -/

theorem u8_cons (byte : UInt8) (rest : Bytes) : u8 (byte :: rest) = ⟨.ok byte, rest, []⟩ :=
  u8_eq_ok.2 ⟨by rw [BigEndian.encode_one]; rfl, rfl⟩

theorem flag_cons (byte : UInt8) (rest : Bytes) :
    flag (byte :: rest) = ⟨.ok (byte != 0), rest, Event.ofFlag byte⟩ := by
  rw [flag, bind_of_ok (u8_cons byte rest)]
  by_cases h : byte > 1 <;> simp [h, report, bind_apply, Event.ofFlag]

theorem flag_cons_of_ne {byte : UInt8} (h : byte ≠ 0) (rest : Bytes) :
    flag (byte :: rest) = ⟨.ok true, rest, Event.ofFlag byte⟩ := by
  have htrue : (byte != 0) = true := by simp [h]
  rw [flag_cons, htrue]

theorem flag_eq_ok {b : Bool} {input rest : Bytes} {es : List Event} :
    flag input = ⟨.ok b, rest, es⟩ ↔
      ∃ byte, input = byte :: rest ∧ b = (byte != 0) ∧ es = Event.ofFlag byte := by
  constructor
  · intro h
    obtain ⟨byte, mid, es₁, es₂, hbyte, -, -⟩ := bind_eq_ok.1 h
    obtain ⟨rfl, -⟩ := u8_eq_ok.1 hbyte
    rw [BigEndian.encode_one, List.singleton_append, flag_cons] at h
    cases h
    exact ⟨byte, by rw [BigEndian.encode_one]; rfl, rfl, rfl⟩
  · rintro ⟨byte, rfl, rfl, rfl⟩
    exact flag_cons byte rest

theorem text_append {bytes : Bytes} (h : bytes.length < BigEndian.capacity 4) (rest : Bytes) :
    text (BigEndian.encode 4 bytes.length ++ (bytes ++ rest)) =
      ⟨.ok (Utf8.decodeLossy bytes), rest, Event.ofText bytes⟩ := by
  rw [text, bind_of_ok (length_append h (bytes ++ rest)), bind_of_ok (take_append bytes rest)]
  unfold Event.ofText
  cases Utf8.defect? bytes <;> simp [report, bind_apply]

theorem text_eq_ok {s : String} {input rest : Bytes} {es : List Event} :
    text input = ⟨.ok s, rest, es⟩ ↔
      ∃ bytes : Bytes, bytes.length < BigEndian.capacity 4 ∧
        input = BigEndian.encode 4 bytes.length ++ (bytes ++ rest) ∧
        s = Utf8.decodeLossy bytes ∧ es = Event.ofText bytes := by
  constructor
  · intro h
    obtain ⟨n, mid, es₁, es₂, hlen, hmid, -⟩ := bind_eq_ok.1 h
    obtain ⟨bytes, mid', es₃, es₄, htake, -, -⟩ := bind_eq_ok.1 hmid
    obtain ⟨hn, rfl, -⟩ := length_eq_ok.1 hlen
    obtain ⟨rfl, rfl, -⟩ := take_eq_ok.1 htake
    rw [text_append hn] at h
    cases h
    exact ⟨bytes, hn, rfl, rfl, rfl⟩
  · rintro ⟨bytes, hn, rfl, rfl, rfl⟩
    exact text_append hn rest

/-! ## Lists -/

/-- Reads `count` elements one after the other. -/
def times (element : Reader α) : (count : Nat) → Reader (List α)
  | 0 => pure []
  | count + 1 => do return (← element) :: (← times element count)

theorem times_map (f : α → β) (element : Reader α) (count : Nat) :
    times (f <$> element) count = List.map f <$> times element count := by
  induction count with
  | zero => simp [times]
  | succ count ih => simp [times, ih]

theorem collect_toList (element : Reader α) (count : Nat) (items : Array α) :
    Array.toList <$> collect element count items = (items.toList ++ ·) <$> times element count := by
  induction count generalizing items with
  | zero => simp [collect, times]
  | succ count ih => simp [collect, times, ih]

/-- The room that is made for the elements leaves no trace. -/
theorem list_eq (shape : Shape) (element : Reader α) :
    list shape element = (do
      let count ← length
      let _ ← ofExcept (shape.reserve count (← remaining))
      times element count) := by
  have hcollect (count : Nat) :
      Array.toList <$> collect element count #[] = times element count := by
    simp [collect_toList]
  simp [list, hcollect]

theorem list_map (shape : Shape) (f : α → β) (element : Reader α) :
    list shape (f <$> element) = List.map f <$> list shape element := by
  simp [list_eq, times_map]

theorem length_of_times {element : Reader α} {count : Nat} {input rest : Bytes} {xs : List α}
    {es : List Event} (h : times element count input = ⟨.ok xs, rest, es⟩) :
    xs.length = count := by
  induction count generalizing input rest xs es with
  | zero =>
    obtain ⟨rfl, -, -⟩ := pure_eq_ok.1 h
    rfl
  | succ count ih =>
    obtain ⟨x, mid, es₁, es₂, -, hmid, -⟩ := bind_eq_ok.1 h
    obtain ⟨xs', mid', es₃, es₄, hxs, hpure, -⟩ := bind_eq_ok.1 hmid
    obtain ⟨rfl, -, -⟩ := pure_eq_ok.1 hpure
    rw [List.length_cons, ih hxs]

/-- Of the room that is made for the elements only the check of their count is left. -/
theorem reserve_bind (shape : Shape) (count : Nat) (r : Reader α) (input : Bytes) :
    (do let _ ← ofExcept (shape.reserve count (← remaining)); r) input =
      if count > input.length then ⟨.error (.insufficientBytes count input.length), input, []⟩
      else r input := by
  unfold Shape.reserve
  by_cases hc : count > input.length
  · simp [hc, remaining, ofExcept, fail, bind_apply]
  · simp [hc, remaining, ofExcept, bind_apply]

/-- After its count, a list is refused for want of bytes or read element by element. -/
theorem list_append (shape : Shape) (element : Reader α) {count : Nat}
    (h : count < BigEndian.capacity 4) (input : Bytes) :
    list shape element (BigEndian.encode 4 count ++ input) =
      if count > input.length then ⟨.error (.insufficientBytes count input.length), input, []⟩
      else times element count input := by
  rw [list_eq, bind_of_ok (length_append h input), reserve_bind]
  rfl

theorem list_eq_ok {shape : Shape} {element : Reader α} {xs : List α} {input rest : Bytes}
    {es : List Event} :
    list shape element input = ⟨.ok xs, rest, es⟩ ↔
      ∃ mid, xs.length < BigEndian.capacity 4 ∧ input = BigEndian.encode 4 xs.length ++ mid ∧
        xs.length ≤ mid.length ∧ times element xs.length mid = ⟨.ok xs, rest, es⟩ := by
  constructor
  · intro h
    obtain ⟨count, mid, es₁, es₂, hlen, -, -⟩ := bind_eq_ok.1 h
    obtain ⟨hcount, rfl, -⟩ := length_eq_ok.1 hlen
    rw [list_append shape element hcount] at h
    split at h
    · cases h
    · rename_i hle
      obtain rfl := length_of_times h
      exact ⟨mid, hcount, rfl, by omega, h⟩
  · rintro ⟨mid, hcount, rfl, hle, h⟩
    rw [list_append shape element hcount, if_neg (by omega), h]

/-! ## Bytes one by one -/

theorem times_u8_eq_ok {n : Nat} {input bs rest : Bytes} {es : List Event} :
    times u8 n input = ⟨.ok bs, rest, es⟩ ↔ bs.length = n ∧ input = bs ++ rest ∧ es = [] := by
  induction n generalizing input bs es with
  | zero =>
    rw [times, pure_eq_ok]
    constructor
    · rintro ⟨rfl, rfl, rfl⟩
      exact ⟨rfl, rfl, rfl⟩
    · rintro ⟨hlen, rfl, rfl⟩
      obtain rfl := List.length_eq_zero_iff.1 hlen
      exact ⟨rfl, rfl, rfl⟩
  | succ n ih =>
    constructor
    · intro h
      obtain ⟨b, mid, es₁, es₂, hb, hmid, rfl⟩ := bind_eq_ok.1 h
      obtain ⟨bs', mid', es₃, es₄, hbs, hpure, rfl⟩ := bind_eq_ok.1 hmid
      obtain ⟨rfl, rfl, rfl⟩ := pure_eq_ok.1 hpure
      obtain ⟨rfl, rfl⟩ := u8_eq_ok.1 hb
      obtain ⟨rfl, rfl, rfl⟩ := ih.1 hbs
      exact ⟨rfl, by rw [BigEndian.encode_one]; rfl, rfl⟩
    · rintro ⟨hlen, rfl, rfl⟩
      obtain ⟨b, bs, rfl⟩ := List.exists_cons_of_length_eq_add_one hlen
      have hbs : times u8 n (bs ++ rest) = ⟨.ok bs, rest, []⟩ :=
        ih.2 ⟨Nat.succ.inj hlen, rfl, rfl⟩
      rw [times, List.cons_append, bind_of_ok (u8_cons b (bs ++ rest)), bind_of_ok hbs]
      rfl

/-- A list of bytes covers its own count. -/
theorem list_u8_eq_ok {bs input rest : Bytes} {es : List Event} :
    list .u8 u8 input = ⟨.ok bs, rest, es⟩ ↔
      bs.length < BigEndian.capacity 4 ∧
        input = BigEndian.encode 4 bs.length ++ (bs ++ rest) ∧ es = [] := by
  rw [list_eq_ok]
  constructor
  · rintro ⟨mid, hlen, rfl, -, htimes⟩
    obtain ⟨-, rfl, rfl⟩ := times_u8_eq_ok.1 htimes
    exact ⟨hlen, rfl, rfl⟩
  · rintro ⟨hlen, rfl, rfl⟩
    refine ⟨bs ++ rest, hlen, rfl, ?_, times_u8_eq_ok.2 ⟨rfl, rfl, rfl⟩⟩
    rw [List.length_append]
    exact Nat.le_add_right _ _

theorem list_u8_append {bs : Bytes} (h : bs.length < BigEndian.capacity 4) (rest : Bytes) :
    list .u8 u8 (BigEndian.encode 4 bs.length ++ (bs ++ rest)) = ⟨.ok bs, rest, []⟩ :=
  list_u8_eq_ok.2 ⟨h, rfl, rfl⟩

/-! ## Silent readers -/

/-- The reader has nothing to report, whether it succeeds or fails. -/
def Silent (r : Reader α) : Prop := ∀ input, (r input).events = []

namespace Silent

theorem pure (a : α) : (pure a : Reader α).Silent := fun _ => rfl

theorem bind {r : Reader α} {f : α → Reader β} (hr : r.Silent) (hf : ∀ a, (f a).Silent) :
    (r >>= f).Silent := fun input => by
  have hfirst := hr input
  rcases ha : r input with ⟨e | a, mid, es⟩
  · rw [bind_eq_error.2 (.inl ha)]
    rwa [ha] at hfirst
  · rw [ha] at hfirst
    obtain rfl : es = [] := hfirst
    rw [bind_of_ok ha]
    exact hf a mid

theorem take (n : Nat) : (take n).Silent := fun input => by
  rcases Nat.lt_or_ge input.length n with hn | hn
  · rw [take_short hn]
  · rw [take_of_le hn]

theorem number (width : Nat) : (number width).Silent := (take width).bind fun _ => pure _

theorem u8 : u8.Silent := (number 1).bind fun _ => pure _

theorem u16 : u16.Silent := (number 2).bind fun _ => pure _

theorem length : length.Silent := ((number 4).bind fun _ => pure _).bind fun _ => pure _

theorem times {element : Reader α} (h : element.Silent) (count : Nat) :
    (times element count).Silent := by
  induction count with
  | zero => exact pure []
  | succ count ih => exact h.bind fun a => ih.bind fun as => pure (a :: as)

theorem list (shape : Shape) {element : Reader α} (h : element.Silent) :
    (list shape element).Silent := by
  rw [list_eq]
  refine length.bind fun count input => ?_
  rw [reserve_bind]
  split
  · rfl
  · exact h.times count input

end Silent

/-- What is reported before a silent reader is all that is reported. -/
theorem events_bind {r : Reader α} {f : α → Reader β} {input rest : Bytes} {a : α}
    {es : List Event} (h : r input = ⟨.ok a, rest, es⟩) (hf : (f a).Silent) :
    ((r >>= f) input).events = es := by
  rw [bind_of_ok h]
  show es ++ (f a rest).events = es
  rw [hf rest, List.append_nil]

/-! ## Whole buffers -/

theorem front_eq_ok {r : Reader α} {buffer rest : Bytes} {a : α} {es : List Event} :
    r.front buffer = ⟨.ok (a, rest), es⟩ ↔ r buffer = ⟨.ok a, rest, es⟩ := by
  rw [front]
  constructor
  · intro h
    rcases hread : r buffer with ⟨_ | a', rest', es'⟩
    · rw [hread] at h
      cases h
    · rw [hread] at h
      cases h
      rfl
  · intro h
    rw [h]
    rfl

theorem front_some_eq_ok {r : Reader α} {buffer rest : Bytes} {a : α} {es : List Event} :
    (some <$> r).front buffer = ⟨.ok (some a, rest), es⟩ ↔ r buffer = ⟨.ok a, rest, es⟩ := by
  simp only [front_eq_ok, map_eq_ok, Option.some.injEq, exists_eq_right]

theorem exactly_of_ok {r : Reader α} {buffer : Bytes} {a : α} {es : List Event}
    (h : r buffer = ⟨.ok a, [], es⟩) : r.exactly buffer = ⟨.ok a, es⟩ := by
  rw [exactly, h]
  rfl

theorem exactly_of_extra {r : Reader α} {buffer rest : Bytes} {a : α} {es : List Event}
    (h : r buffer = ⟨.ok a, rest, es⟩) (hrest : rest ≠ []) :
    r.exactly buffer = ⟨.error (.extraInput rest.length), es⟩ := by
  cases rest with
  | nil => exact absurd rfl hrest
  | cons b bs =>
    rw [exactly, h]
    rfl

theorem exactly_of_error {r : Reader α} {buffer rest : Bytes} {e : WireError} {es : List Event}
    (h : r buffer = ⟨.error e, rest, es⟩) : r.exactly buffer = ⟨.error e, es⟩ := by
  rw [exactly, h]
  rfl

theorem exactly_eq_ok {r : Reader α} {buffer : Bytes} {a : α} {es : List Event} :
    r.exactly buffer = ⟨.ok a, es⟩ ↔ r buffer = ⟨.ok a, [], es⟩ := by
  refine ⟨fun h => ?_, exactly_of_ok⟩
  rcases hr : r buffer with ⟨e | b, rest, es'⟩
  · rw [exactly_of_error hr] at h
    cases h
  · by_cases hrest : rest = []
    · subst hrest
      rw [exactly_of_ok hr] at h
      cases h
      rfl
    · rw [exactly_of_extra hr hrest] at h
      cases h

end Reader

namespace Report

variable {ε ε' α β : Type}

theorem map_eq_ok {x : Report ε α} {f : α → β} {b : β} {es : List Event} :
    x.map f = ⟨.ok b, es⟩ ↔ ∃ a, x = ⟨.ok a, es⟩ ∧ f a = b := by
  constructor
  · intro h
    rcases x with ⟨e | a, es'⟩
    · cases h
    · cases h
      exact ⟨a, rfl, rfl⟩
  · rintro ⟨a, rfl, rfl⟩
    rfl

theorem mapError_eq_ok {x : Report ε α} {f : ε → ε'} {a : α} {es : List Event} :
    x.mapError f = ⟨.ok a, es⟩ ↔ x = ⟨.ok a, es⟩ := by
  constructor
  · intro h
    rcases x with ⟨e | b, es'⟩
    · cases h
    · cases h
      rfl
  · rintro rfl
    rfl

end Report

end PeerWire
