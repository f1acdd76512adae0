import PeerWire.Proofs.Prefixes

/-!
# The room made for a list

Before its elements are read, a list gets room for as many as the bytes left can spell if each is as
short as its shape allows, and no element is charged less than one byte (`Shape.reserve_eq_ok`). The
machine's size of an element never exceeds its least size, also where a sum wraps around
(`Shape.toNat_minSizeWord_le`), so the room is never too small. The
readers of elements spend what they are charged (`Reader.Spends`), so a reading never gets past the
room that was made, however it ends (`Reader.Spends.le_room`), and in a value that is read all lists
have been given room for just their elements (`Derivation.Reads.reserve_eq`). Main statement: a list
that is read fills its room, and one with less room than its count claims is not read
(`Reader.list_fills_room`).
-/

namespace PeerWire

namespace Shape

/-! ## Sizes in words -/

mutual
/-- A sum that wraps around leaves the remainder by the number of words. -/
theorem toNat_minSizeWord : (s : Shape) →
    s.minSizeWord.toNat = s.minSize % BigEndian.capacity 8
  | .u8 | .u16 | .u32 | .u64 | .bool | .string | .list _ | .optional _ => rfl
  | .fixedBytes _ => UInt64.toNat_ofNat'
  | .record _ fields => toNat_fieldsMinSizeWord fields
theorem toNat_fieldsMinSizeWord : (fields : List Field) →
    (fieldsMinSizeWord fields).toNat = fieldsMinSize fields % BigEndian.capacity 8
  | [] => rfl
  | ⟨_, _, s⟩ :: fields => by
    rw [fieldsMinSizeWord, fieldsMinSize, UInt64.toNat_add, toNat_minSizeWord s,
      toNat_fieldsMinSizeWord fields]
    exact (Nat.add_mod _ _ _).symm
end

theorem toNat_minSizeWord_le (s : Shape) : s.minSizeWord.toNat ≤ s.minSize :=
  s.toNat_minSizeWord ▸ Nat.mod_le _ _

theorem word?_add (m n : Nat) : (do word? ((← word? m) + (← word? n))) = word? (m + n) := by
  unfold word?
  by_cases hm : m < BigEndian.capacity 8
  · by_cases hn : n < BigEndian.capacity 8
    · simp [hm, hn]
    · simp [hm, hn, show ¬ m + n < BigEndian.capacity 8 by omega]
  · simp [hm, show ¬ m + n < BigEndian.capacity 8 by omega]

mutual
theorem minSize?_eq : (s : Shape) → s.minSize? = word? s.minSize
  | .u8 | .u16 | .u32 | .u64 | .bool | .fixedBytes _ | .string | .list _ | .optional _ => rfl
  | .record _ fields => fieldsMinSize?_eq fields
theorem fieldsMinSize?_eq : (fields : List Field) →
    fieldsMinSize? fields = word? (fieldsMinSize fields)
  | [] => rfl
  | ⟨_, _, s⟩ :: fields => by
    rw [fieldsMinSize?, fieldsMinSize, minSize?_eq s, fieldsMinSize?_eq fields, word?_add]
end

variable {element : Shape} {count remaining room : Nat}

/-! ## How much room -/

theorem reserve_eq_error {e : WireError} :
    element.reserve count remaining = .error e ↔
      remaining < count ∧ e = .insufficientBytes count remaining := by
  unfold reserve
  split
  · rename_i hlt
    constructor
    · intro h
      cases h
      exact ⟨hlt, rfl⟩
    · rintro ⟨-, rfl⟩
      rfl
  · rename_i hle
    constructor
    · intro h
      cases h
    · exact fun h => absurd h.1 hle

theorem reserve_of_le (h : count ≤ remaining) :
    element.reserve count remaining =
      .ok (min count (remaining / max 1 element.minSizeWord.toNat)) :=
  if_neg (Nat.not_lt.2 h)

theorem reserve_eq_ok :
    element.reserve count remaining = .ok room ↔
      count ≤ remaining ∧ room = min count (remaining / max 1 element.minSizeWord.toNat) := by
  constructor
  · intro h
    rcases Nat.lt_or_ge remaining count with hlt | hle
    · rw [reserve_eq_error.2 ⟨hlt, rfl⟩] at h
      cases h
    · rw [reserve_of_le hle] at h
      exact ⟨hle, (Except.ok.inj h).symm⟩
  · rintro ⟨hle, rfl⟩
    exact reserve_of_le hle

/-- An element is never charged nothing. -/
theorem charge_pos (element : Shape) : 0 < max 1 element.minSizeWord.toNat :=
  Nat.lt_of_lt_of_le Nat.one_pos (Nat.le_max_left _ _)

theorem room_le (h : element.reserve count remaining = .ok room) : room ≤ count := by
  obtain ⟨-, rfl⟩ := reserve_eq_ok.1 h
  exact Nat.min_le_left _ _

theorem room_mul_le (h : element.reserve count remaining = .ok room) :
    room * max 1 element.minSizeWord.toNat ≤ remaining := by
  obtain ⟨-, rfl⟩ := reserve_eq_ok.1 h
  exact (Nat.le_div_iff_mul_le element.charge_pos).1 (Nat.min_le_right _ _)

/-- There is room for any elements that the bytes left can spell. -/
theorem le_room (h : element.reserve count remaining = .ok room) {n : Nat} (hcount : n ≤ count)
    (hbytes : n * element.minSize ≤ remaining) : n ≤ room := by
  obtain ⟨hle, rfl⟩ := reserve_eq_ok.1 h
  refine Nat.le_min.2 ⟨hcount, (Nat.le_div_iff_mul_le element.charge_pos).2 ?_⟩
  -- The count pays for the byte that an element without bytes is charged.
  rw [← Nat.mul_max_mul_left, Nat.mul_one]
  have hword := Nat.mul_le_mul_left n element.toNat_minSizeWord_le
  exact Nat.max_le.2 ⟨Nat.le_trans hcount hle, Nat.le_trans hword hbytes⟩

theorem reserve_eq_count (hcount : count ≤ remaining)
    (hbytes : count * element.minSize ≤ remaining) :
    element.reserve count remaining = .ok count := by
  have hreserve := @reserve_of_le element count remaining hcount
  have hroom := le_room hreserve (Nat.le_refl count) hbytes
  rwa [Nat.le_antisymm (room_le hreserve) hroom] at hreserve

/-- A check for overflow stops no list but one that gets room for elements whose size is no word,
and it changes no room. -/
theorem reserve?_eq (element : Shape) (count remaining : Nat) :
    element.reserve? count remaining =
      if remaining < count ∨ element.minSize < BigEndian.capacity 8 then
        some (element.reserve count remaining)
      else none := by
  unfold reserve? reserve
  rcases Nat.lt_or_ge remaining count with hlt | hle
  · rw [if_pos hlt, if_pos hlt, if_pos (.inl hlt)]
  · rw [if_neg (Nat.not_lt.2 hle), if_neg (Nat.not_lt.2 hle), minSize?_eq, toNat_minSizeWord, word?]
    by_cases hword : element.minSize < BigEndian.capacity 8
    · rw [if_pos hword, if_pos (.inr hword), Nat.mod_eq_of_lt hword]
      rfl
    · rw [if_neg hword, if_neg (not_or.2 ⟨Nat.not_lt.2 hle, hword⟩)]
      rfl

example : (Shape.fixedBytes 0).reserve 3 5 = .ok 3 := by decide

end Shape

/-- What a list has before its elements are read: the number of elements that it claims and the
number that there is room for. -/
structure Allotment where
  count : Nat
  room : Nat
  deriving DecidableEq

namespace Reader

variable {α β : Type}

/-- The part of the reader of a list that comes before its elements. -/
def allot (element : Shape) : Reader Allotment := do
  let count ← length
  let room ← ofExcept (element.reserve count (← remaining))
  return ⟨count, room⟩

theorem list_eq_allot (shape : Shape) (element : Reader α) :
    list shape element = (do
      let allotment ← allot shape
      return (← collect element allotment.count (Array.mkEmpty allotment.room)).toList) := by
  simp [list, allot]

theorem ofExcept_apply (x : Except WireError α) (input : Bytes) :
    ofExcept x input = ⟨x, input, []⟩ := by
  cases x <;> rfl

/-- Once the count is read, the room is a matter of the bytes that are left. -/
theorem allot_of_length {element : Shape} {count : Nat} {input rest : Bytes} {es : List Event}
    (h : length input = ⟨.ok count, rest, es⟩) :
    allot element input =
      ⟨(element.reserve count rest.length).map (Allotment.mk count), rest, es⟩ := by
  rw [allot, bind_of_ok h]
  simp [bind_apply, remaining, map_apply, ofExcept_apply]

theorem allot_eq_ok {element : Shape} {a : Allotment} {input rest : Bytes} {es : List Event} :
    allot element input = ⟨.ok a, rest, es⟩ ↔
      length input = ⟨.ok a.count, rest, es⟩ ∧
        element.reserve a.count rest.length = .ok a.room := by
  constructor
  · intro h
    obtain ⟨count, mid, es₁, es₂, hcount, -, -⟩ := bind_eq_ok.1 h
    rw [allot_of_length hcount] at h
    cases hroom : element.reserve count mid.length with
    | error e =>
      rw [hroom] at h
      cases h
    | ok room =>
      rw [hroom] at h
      cases h
      exact ⟨hcount, hroom⟩
  · rintro ⟨hcount, hroom⟩
    rw [allot_of_length hcount, hroom]
    rfl

/-! ## What elements cost -/

/-- Whatever the reader reads, it takes at least `n` bytes for it. -/
def Spends (r : Reader α) (n : Nat) : Prop :=
  ∀ ⦃input rest : Bytes⦄ ⦃a : α⦄ ⦃es : List Event⦄, r input = ⟨.ok a, rest, es⟩ →
    n + rest.length ≤ input.length

namespace Spends

theorem of_map {f : α → β} {r : Reader α} {n : Nat} (h : (f <$> r).Spends n) : r.Spends n :=
  fun _ _ _ _ hread => h (map_of_ok f hread)

theorem times {element : Reader α} {n : Nat} (h : element.Spends n) (count : Nat) :
    (times element count).Spends (count * n) := by
  induction count with
  | zero =>
    intro input rest xs es hread
    obtain ⟨-, rfl, -⟩ := pure_eq_ok.1 hread
    exact Nat.le_of_eq (by rw [Nat.zero_mul, Nat.zero_add])
  | succ count ih =>
    intro input rest xs es hread
    obtain ⟨x, mid, es₁, es₂, hx, hmid, -⟩ := bind_eq_ok.1 hread
    obtain ⟨xs', mid', es₃, es₄, hxs, hpure, -⟩ := bind_eq_ok.1 hmid
    obtain ⟨-, rfl, -⟩ := pure_eq_ok.1 hpure
    have hfirst := h hx
    have hothers := ih hxs
    rw [Nat.succ_mul]
    omega

/-- No reading gets past the room: when `n` elements of a list have been read, there was room for
them, whatever becomes of the others. -/
theorem le_room {shape : Shape} {element : Reader α} (h : element.Spends shape.minSize)
    {a : Allotment} {input mid rest : Bytes} {es es' : List Event}
    (ha : allot shape input = ⟨.ok a, mid, es⟩) {n : Nat} (hn : n ≤ a.count) {xs : List α}
    (hread : Reader.times element n mid = ⟨.ok xs, rest, es'⟩) : n ≤ a.room := by
  have hbytes := h.times n hread
  exact Shape.le_room (allot_eq_ok.1 ha).2 hn (Nat.le_of_add_right_le hbytes)

/-- A list that is read has been given room for its elements and for no others. -/
theorem allot_of_list {shape : Shape} {element : Reader α} (h : element.Spends shape.minSize)
    {input rest : Bytes} {xs : List α} {es : List Event}
    (hread : list shape element input = ⟨.ok xs, rest, es⟩) :
    ∃ mid, allot shape input = ⟨.ok ⟨xs.length, xs.length⟩, mid, []⟩ := by
  obtain ⟨mid, hlen, rfl, hle, htimes⟩ := list_eq_ok.1 hread
  have hbytes := h.times xs.length htimes
  have hroom := Shape.reserve_eq_count hle (Nat.le_of_add_right_le hbytes)
  exact ⟨mid, allot_eq_ok.2 ⟨length_append hlen mid, hroom⟩⟩

/-- A list that does not get room for all its elements runs short of bytes. -/
theorem list_runs_short {shape : Shape} {element : Reader α} (h : element.Spends shape.minSize)
    {f : List α → β} (hf : (f <$> list shape element).Incremental) {a : Allotment}
    {input mid : Bytes} {es : List Event} (ha : allot shape input = ⟨.ok a, mid, es⟩)
    (hlt : a.room < a.count) :
    ∃ needed left, left < needed ∧
      (list shape element input).result = .error (.insufficientBytes needed left) := by
  rcases hread : list shape element input with ⟨e | xs, rest, es'⟩
  · obtain ⟨needed, hmore, rfl, -⟩ := hf.of_error (map_eq_error.2 hread)
    exact ⟨needed, rest.length, hmore, rfl⟩
  · obtain ⟨mid', hfull⟩ := h.allot_of_list hread
    rw [ha] at hfull
    cases hfull
    exact absurd hlt (Nat.lt_irrefl _)

end Spends

end Reader

/-! ## Lists inside values -/

/-- In a value that is read, every list, however deep, has been given room for its elements and for
no others. -/
theorem Derivation.Reads.reserve_eq {k : Shape} {w : Bytes} {v : Value} {d : Derivation k w v}
    {input rest : Bytes} {es : List Event} (hd : d.Reads input rest es) {h : ListHead}
    (hmem : h ∈ d.heads rest.length) : h.element.reserve h.count h.room = .ok h.count :=
  Shape.reserve_eq_count (hd.covered h hmem) (d.count_mul_minSize_le_of_mem_heads hmem)

/-! ## Lists of either codec -/

theorem Shape.spends_decode (k : Shape) : k.decode.Spends k.minSize := by
  intro input rest v es h
  obtain ⟨w, d, rfl, -, -⟩ := k.exists_derivation h
  rw [List.length_append]
  exact Nat.add_le_add_right d.minSize_le _

theorem Ty.spends_decode [Defaults] (t : Ty) : t.decode.Spends t.shape.minSize := by
  have h := t.shape.spends_decode
  rw [t.decode_shape] at h
  exact h.of_map

theorem Shape.decode_list_eq_map (element : Shape) :
    (Shape.list element).decode = Value.list <$> Reader.list element element.decode := by
  rw [decode, bind_pure_comp]

namespace Reader

/-- Room is refused just to a count that the bytes left do not cover. All other counts are given
what those bytes can pay for, a quotient by a positive number, and never more than they claim. The
size of an element is the machine's: its least size, or what is left of that where a sum wraps
around. Under a check for overflow the machine stops at such a sum, and gives the same room to all
other lists. A list that is read, driven by a shape or by a declared type, has been given room for
its elements and for no others, so one with less room than its count claims fails for want of
bytes. -/
theorem list_fills_room [Defaults] :
    (∀ (element : Shape) (count remaining : Nat),
      let size := element.minSizeWord.toNat
      (∀ e, element.reserve count remaining = .error e ↔
        remaining < count ∧ e = .insufficientBytes count remaining) ∧
      0 < max 1 size ∧
      (count ≤ remaining → ∃ room, element.reserve count remaining = .ok room ∧
        room = min count (remaining / max 1 size) ∧
        room ≤ count ∧ room * max 1 size ≤ remaining) ∧
      size = element.minSize % BigEndian.capacity 8 ∧
      element.reserve? count remaining =
        if remaining < count ∨ element.minSize < BigEndian.capacity 8 then
          some (element.reserve count remaining)
        else none) ∧
    (∀ element : Shape,
      (Shape.list element).decode = (do
        let allotment ← allot element
        let items ← collect element.decode allotment.count (Array.mkEmpty allotment.room)
        return .list items.toList) ∧
      ∀ input : Bytes,
        (∀ v rest es, (Shape.list element).decode input = ⟨.ok v, rest, es⟩ →
          ∃ items mid, v = .list items ∧
            allot element input = ⟨.ok ⟨items.length, items.length⟩, mid, []⟩) ∧
        (∀ a mid es, allot element input = ⟨.ok a, mid, es⟩ → a.room < a.count →
          ∃ needed left, left < needed ∧ ((Shape.list element).decode input).result =
            .error (.insufficientBytes needed left))) ∧
    (∀ t : Ty,
      (Ty.list t).decode = (do
        let allotment ← allot t.shape
        let items ← collect t.decode allotment.count (Array.mkEmpty allotment.room)
        return items.toList) ∧
      ∀ input : Bytes,
        (∀ (items : List t.Val) rest es, (Ty.list t).decode input = ⟨.ok items, rest, es⟩ →
          ∃ mid, allot t.shape input = ⟨.ok ⟨items.length, items.length⟩, mid, []⟩) ∧
        (∀ a mid es, allot t.shape input = ⟨.ok a, mid, es⟩ → a.room < a.count →
          ∃ needed left, left < needed ∧ ((Ty.list t).decode input).result =
            .error (.insufficientBytes needed left))) := by
  refine ⟨fun element count remaining => ?_, fun element => ?_, fun t => ?_⟩
  · refine ⟨fun e => Shape.reserve_eq_error, element.charge_pos, fun hle => ?_,
      element.toNat_minSizeWord, element.reserve?_eq count remaining⟩
    have hroom := @Shape.reserve_of_le element count remaining hle
    exact ⟨_, hroom, rfl, Shape.room_le hroom, Shape.room_mul_le hroom⟩
  · have hspends := element.spends_decode
    have hshort := (Shape.list element).incremental_decode
    rw [element.decode_list_eq_map] at hshort ⊢
    refine ⟨by simp [list_eq_allot], fun input => ⟨fun v rest es h => ?_, ?_⟩⟩
    · obtain ⟨items, hitems, rfl⟩ := map_eq_ok.1 h
      obtain ⟨mid, hfull⟩ := hspends.allot_of_list hitems
      exact ⟨items, mid, rfl, hfull⟩
    · intro a mid es ha hlt
      obtain ⟨needed, left, hlt, herror⟩ := hspends.list_runs_short hshort ha hlt
      exact ⟨needed, left, hlt, map_of_error herror⟩
  · have hspends := t.spends_decode
    have hshort := (Ty.list t).shape.incremental_decode
    rw [(Ty.list t).decode_shape] at hshort
    refine ⟨list_eq_allot t.shape t.decode, fun input => ⟨fun items rest es h => ?_, ?_⟩⟩
    · exact hspends.allot_of_list h
    · intro a mid es ha hlt
      exact hspends.list_runs_short hshort ha hlt

section

attribute [local instance] Defaults.zero

/-- Two ports with a flag each take six bytes. In five there is room for one of them, so the list is
not read, whichever codec reads it. The size of a record with the longest block and one more byte
wraps around to nothing. -/
theorem list_fills_room_flagged_ports :
    let t : Ty := .record .listing "Port" [.named "open" .bool, .named "number" .u16]
    let whole : Bytes := [0, 0, 0, 2, 1, 0, 80, 7, 1, 187]
    let cut : Bytes := [0, 0, 0, 2, 1, 0, 80, 7, 1]
    let huge : Shape := .record "Huge"
      [⟨"block", 0, .fixedBytes (BigEndian.capacity 8 - 1)⟩, ⟨"last", 1, .u8⟩]
    (t.shape.reserve 2 5 = .ok 1 ∧ 1 * max 1 t.shape.minSizeWord.toNat ≤ 5 ∧
      t.shape.reserve? 2 5 = some (.ok 1)) ∧
    (huge.minSizeWord.toNat = 0 ∧ huge.reserve 1 100 = .ok 1 ∧ huge.reserve? 1 100 = none ∧
      huge.reserve? 101 100 = some (.error (.insufficientBytes 101 100))) ∧
    (Ty.list t).decode whole = ⟨.ok [(true, 80, ()), (true, 443, ())], [], [.looseFlag 7]⟩ ∧
    allot t.shape whole = ⟨.ok ⟨2, 2⟩, whole.drop 4, []⟩ ∧
    (∃ items mid, (Ty.list t).image [(true, 80, ()), (true, 443, ())] = .list items ∧
      allot t.shape whole = ⟨.ok ⟨items.length, items.length⟩, mid, []⟩) ∧
    allot t.shape cut = ⟨.ok ⟨2, 1⟩, cut.drop 4, []⟩ ∧
    (∃ needed left, left < needed ∧
      ((Shape.list t.shape).decode cut).result = .error (.insufficientBytes needed left)) ∧
    ∃ needed left, left < needed ∧
      ((Ty.list t).decode cut).result = .error (.insufficientBytes needed left) := by
  intro t whole cut huge
  have hread : (Ty.list t).decode whole =
      ⟨.ok [(true, 80, ()), (true, 443, ())], [], [.looseFlag 7]⟩ := by
    let r : Reader (List (Bool × UInt16 × Unit)) := (Ty.list t).decode
    have hfront : r.front whole =
        ⟨.ok ([(true, 80, ()), (true, 443, ())], []), [.looseFlag 7]⟩ := by
      decide +kernel
    exact front_eq_ok.1 hfront
  have hcut : allot t.shape cut = ⟨.ok ⟨2, 1⟩, cut.drop 4, []⟩ := front_eq_ok.1 (by decide +kernel)
  obtain ⟨hreserve, hdynamic, hstatic⟩ := list_fills_room
  obtain ⟨-, -, hport, -, hchecked⟩ := hreserve t.shape 2 5
  obtain ⟨room, hroom, hvalue, -, hpaid⟩ := hport (by decide)
  obtain rfl : room = 1 := hvalue.trans (by decide)
  rw [hroom, if_pos (by decide)] at hchecked
  obtain ⟨-, -, hhuge, hwrapped, hstopped⟩ := hreserve huge 1 100
  obtain ⟨room, hgiven, hvalue, -⟩ := hhuge (by decide)
  obtain rfl : room = 1 := hvalue.trans (by decide)
  rw [if_neg (by decide)] at hstopped
  obtain ⟨hrefused, -, -, -, hanswer⟩ := hreserve huge 101 100
  rw [(hrefused _).2 ⟨by decide, rfl⟩, if_pos (by decide)] at hanswer
  obtain ⟨mid, hfull⟩ := ((hstatic t).2 whole).1 _ _ _ hread
  obtain rfl : mid = whole.drop 4 := congrArg Reading.rest hfull.symm
  have himage := congrFun (Ty.list t).decode_shape whole
  rw [map_apply, hread] at himage
  refine ⟨⟨hroom, hpaid, hchecked⟩, ⟨hwrapped.trans (by decide), hgiven, hstopped, hanswer⟩, hread,
    hfull, ((hdynamic t.shape).2 whole).1 _ _ _ himage, hcut, ?_, ?_⟩
  · exact ((hdynamic t.shape).2 cut).2 _ _ _ hcut (by decide)
  · exact ((hstatic t).2 cut).2 _ _ _ hcut (by decide)

end

end Reader

end PeerWire
