import PeerWire.Proofs.Reading
import PeerWire.Proofs.Repair

/-!
# Where bytes stop being UTF-8

`Valid` and `Extensible` are said of bytes without the scanner: the first is the standard library's
UTF-8, the second means that more bytes can make it that. The scanner decides both. Bytes are valid
just if it finds no defect (`valid_iff_defect?_eq_none`), and they are extensible just if all pieces
that it has ended are characters (`extensible_iff`), since a sequence under way can always be
completed (`Pending.exists_completion`).

A defect marks where the characters end and something else comes (`marks_of_defect?`), so its index
is the end of the longest valid prefix, and it has no length just if the bytes are extensible
(`Defect.explains_of_defect?`). Main statement: bytes become text, and what is reported explains
what was changed (`Reader.repair_exact`).
-/

namespace PeerWire

namespace Utf8

/-! ## Valid bytes -/

/-- The bytes are the UTF-8 of some text. -/
def Valid (bs : Bytes) : Prop := bs.toByteArray.IsValidUTF8

/-- More bytes can make the bytes valid. -/
def Extensible (bs : Bytes) : Prop := ∃ more, Valid (bs ++ more)

theorem valid_iff {bs : Bytes} : Valid bs ↔ ∃ s, encode s = bs := by
  constructor
  · rintro ⟨cs, h⟩
    have hbytes := congrArg (fun a => a.data.toList) h
    rw [List.utf8Encode, List.toList_data_toByteArray, List.toList_data_toByteArray] at hbytes
    exact ⟨String.ofList cs, by rw [encode, String.toList_ofList, hbytes]⟩
  · rintro ⟨s, rfl⟩
    exact ⟨s.toList, rfl⟩

theorem valid_encode (s : String) : Valid (encode s) := valid_iff.2 ⟨s, rfl⟩

theorem valid_iff_defect?_eq_none {bs : Bytes} : Valid bs ↔ defect? bs = none := by
  rw [valid_iff]
  constructor
  · rintro ⟨s, rfl⟩
    exact defect?_encode s
  · exact fun h => ⟨decodeLossy bs, defect?_eq_none_iff.1 h⟩

instance (bs : Bytes) : Decidable (Valid bs) := decidable_of_iff _ valid_iff_defect?_eq_none.symm

theorem valid_of_scan {bs : Bytes} {cs : List Char} (h : scan bs = cs.map Piece.char) :
    Valid bs := by
  rw [valid_iff_defect?_eq_none, defect?, h]
  exact defectFrom_map_char 0 cs

theorem defect?_encode_append (s : String) (bs : Bytes) :
    defect? (encode s ++ bs) = defectFrom (encode s).length (scan bs) := by
  rw [defect?, scan_encode_append, defectFrom_append, String.ofList_toList, Nat.zero_add]

theorem le_index_of_defectFrom {offset : Nat} {ps : List Piece} {d : Defect}
    (h : defectFrom offset ps = some d) : offset ≤ d.index := by
  induction ps generalizing offset with
  | nil => cases h
  | cons p ps ih =>
    cases p with
    | char c => exact Nat.le_trans (Nat.le_add_right _ _) (ih h)
    | broken n =>
      cases h
      exact Nat.le_refl _
    | cut n =>
      cases h
      exact Nat.le_refl _

/-! ## Sequences that can be completed -/

/-- A sequence that lets some byte pass next. -/
def Pending.Open (p : Pending) : Prop := p.low ≤ p.high

theorem Pending.open_continued (taken more value : Nat) :
    Pending.Open ⟨taken, more, 0x80, 0xBF, value⟩ := (by decide : (0x80 : UInt8) ≤ 0xBF)

theorem open_of_start {b : UInt8} {p : Pending} (h : start b = .lead p) : p.Open := by
  unfold start at h
  unfold Pending.Open
  grind

theorem open_of_step {s : Option Pending} (hs : ∀ p ∈ s, p.Open) (b : UInt8) :
    ∀ p ∈ (step s b).2, p.Open := by
  have hbegin : ∀ p ∈ (begin b).2, p.Open := by
    intro p hp
    unfold begin at hp
    cases h : start b with
    | single c => simp [h] at hp
    | lead q =>
      obtain rfl : q = p := by simpa [h] using hp
      exact open_of_start h
    | unfit => simp [h] at hp
  cases s with
  | none => exact hbegin
  | some q =>
    intro p hp
    by_cases hin : q.low ≤ b ∧ b ≤ q.high
    · cases hmore : q.more with
      | zero =>
        rw [step_completed hin hmore] at hp
        cases hp
      | succ more =>
        rw [step_continued hin hmore] at hp
        cases hp
        exact Pending.open_continued _ _ _
    · rw [step_broken hin] at hp
      exact hbegin p hp

theorem open_of_run {s : Option Pending} (hs : ∀ p ∈ s, p.Open) (bs : Bytes) :
    ∀ p ∈ (run s bs).2, p.Open := by
  induction bs generalizing s with
  | nil => exact hs
  | cons b bs ih => exact ih (open_of_step hs b)

theorem Pending.exists_completion {p : Pending} (h : p.Open) :
    ∃ more c, run (some p) more = ([.char c], none) := by
  have hin : p.low ≤ p.low ∧ p.low ≤ p.high := ⟨UInt8.le_refl _, h⟩
  induction hmore : p.more generalizing p with
  | zero =>
    refine ⟨[p.low], Char.ofNat (extend p.value p.low), ?_⟩
    rw [run, step_completed hin hmore]
    rfl
  | succ m ih =>
    have hopen := Pending.open_continued (p.taken + 1) m (extend p.value p.low)
    obtain ⟨more, c, hrun⟩ := ih hopen ⟨UInt8.le_refl _, hopen⟩ rfl
    refine ⟨p.low :: more, c, ?_⟩
    rw [run, step_continued hin hmore]
    exact hrun

theorem scanFrom_eq_run (s : Option Pending) (bs : Bytes) :
    scanFrom s bs = (run s bs).1 ++ scanFrom (run s bs).2 [] := by
  have h := scanFrom_append s bs []
  rwa [List.append_nil] at h

/-- Only a piece that the scanner has ended can rule out a text. -/
theorem extensible_iff {bs : Bytes} :
    Extensible bs ↔ ∃ cs : List Char, (run none bs).1 = cs.map Piece.char := by
  constructor
  · rintro ⟨more, h⟩
    obtain ⟨s, hs⟩ := valid_iff.1 h
    have hscan := scan_encode s
    rw [hs, scan, scanFrom_append] at hscan
    obtain ⟨cs, cs', -, hcs, -⟩ := List.append_eq_map_iff.1 hscan
    exact ⟨cs, hcs.symm⟩
  · rintro ⟨cs, hcs⟩
    cases hstate : (run none bs).2 with
    | none =>
      have hscan : scan (bs ++ []) = cs.map Piece.char := by
        rw [scan, scanFrom_append, hcs, hstate]
        exact List.append_nil _
      exact ⟨[], valid_of_scan hscan⟩
    | some p =>
      have hopen : ∀ q ∈ (run none bs).2, q.Open := open_of_run (fun _ hq => by cases hq) bs
      obtain ⟨more, c, hmore⟩ := Pending.exists_completion (hopen p hstate)
      have hscan : scan (bs ++ more) = (cs ++ [c]).map Piece.char := by
        rw [scan, scanFrom_append, hcs, hstate, scanFrom_eq_run, hmore, List.map_append]
        rfl
      exact ⟨more, valid_of_scan hscan⟩

theorem not_extensible_of_broken {s : String} {bs : Bytes} {n : Nat}
    (h : .broken n ∈ (run none bs).1) : ¬ Extensible (encode s ++ bs) := by
  rw [extensible_iff]
  rintro ⟨cs, hcs⟩
  rw [run_append, run_encode] at hcs
  have hmem : Piece.broken n ∈ cs.map Piece.char := hcs ▸ List.mem_append_right _ h
  obtain ⟨c, -, hc⟩ := List.mem_map.1 hmem
  cases hc

theorem extensible_of_underWay {s : String} {bs : Bytes} {p : Pending}
    (h : run none bs = ([], some p)) : Extensible (encode s ++ bs) := by
  rw [extensible_iff]
  refine ⟨s.toList, ?_⟩
  rw [run_append, run_encode, h, List.append_nil]

/-! ## Where a scan stops -/

/-- A piece that is no character, with the bytes behind it. It has a length if it is rejected. -/
inductive Stop : (piece rest : Bytes) → (length? : Option Nat) → Prop where
  | cut {w : Bytes} {p : Pending} (h : run none w = ([], some p)) : Stop w [] none
  | unfit {b : UInt8} {rest : Bytes} (h : start b = .unfit) : Stop [b] rest (some 1)
  | broken {w rest : Bytes} {p : Pending} {b : UInt8} (h : run none w = ([], some p))
      (hw : p.Begun w) (hb : ¬ (p.low ≤ b ∧ b ≤ p.high)) : Stop w (b :: rest) (some w.length)

/-- The defect is where a text ends and a stop comes, in bytes with `offset` bytes in front. -/
def Defect.Marks (d : Defect) (offset : Nat) (bs : Bytes) : Prop :=
  ∃ cs w rest, bs = encode (String.ofList cs) ++ (w ++ rest) ∧
    d.index = offset + (encode (String.ofList cs)).length ∧ Stop w rest d.length?

theorem Defect.Marks.of_stop {offset : Nat} {w rest : Bytes} {length? : Option Nat}
    (h : Stop w rest length?) : Defect.Marks ⟨offset, length?⟩ offset (w ++ rest) :=
  ⟨[], w, rest, by rw [String.ofList_nil, encode_empty, List.nil_append],
    by rw [String.ofList_nil, encode_empty]; rfl, h⟩

theorem Defect.Marks.char {d : Defect} {offset : Nat} {c : Char} {bs : Bytes}
    (h : d.Marks (offset + c.utf8Size) bs) : d.Marks offset (String.utf8EncodeChar c ++ bs) := by
  obtain ⟨cs, w, rest, rfl, hindex, hstop⟩ := h
  refine ⟨c :: cs, w, rest, ?_, ?_, hstop⟩
  · rw [encode_ofList_cons, List.append_assoc]
  · rw [encode_ofList_cons, List.length_append, String.length_utf8EncodeChar, hindex, Nat.add_assoc]

/-- The bytes `taken` have brought the machine to its state without ending a piece. -/
theorem marks_of_defectFrom {s : Option Pending} {taken : Bytes} (hrun : run none taken = ([], s))
    (hs : UnderWay s taken) {offset : Nat} {bs : Bytes} {d : Defect}
    (h : defectFrom offset (scanFrom s bs) = some d) : d.Marks offset (taken ++ bs) := by
  induction bs generalizing s taken offset with
  | nil =>
    cases s with
    | none => cases h
    | some p =>
      cases h
      exact .of_stop (.cut hrun)
  | cons b bs ih =>
    have hfree {offset : Nat} (h : defectFrom offset (scan bs) = some d) : d.Marks offset bs :=
      @ih none [] rfl rfl offset h
    cases s with
    | none =>
      obtain rfl := hs
      rw [scanFrom, step, begin] at h
      cases hstart : start b with
      | single c =>
        rw [hstart] at h
        have hchar := (hfree h).char
        rwa [utf8EncodeChar_of_single hstart] at hchar
      | lead p =>
        rw [hstart] at h
        have hlead : run none [b] = ([], some p) := by rw [run, step_of_lead hstart]; rfl
        exact ih hlead (begun_of_lead hstart) h
      | unfit =>
        rw [hstart] at h
        cases h
        have hstop : Defect.Marks ⟨offset, some 1⟩ offset ([b] ++ bs) := .of_stop (.unfit hstart)
        exact hstop
    | some p =>
      have hbegun : p.Begun taken := hs
      rw [scanFrom] at h
      by_cases hin : p.low ≤ b ∧ b ≤ p.high
      · cases hmore : p.more with
        | zero =>
          rw [step_completed hin hmore, List.singleton_append, defectFrom] at h
          have hchar := (hfree h).char
          rwa [hbegun.completed hin.1 hin.2 hmore, List.append_assoc] at hchar
        | succ more =>
          rw [step_continued hin hmore] at h
          have hnext : run none (taken ++ [b]) =
              ([], some ⟨p.taken + 1, more, 0x80, 0xBF, extend p.value b⟩) := by
            rw [run_append, hrun, run, step_continued hin hmore]
            rfl
          have hrest := ih hnext (hbegun.continued hin.1 hin.2 hmore) h
          rwa [List.append_assoc] at hrest
      · rw [step_broken hin] at h
        cases h
        rw [← hbegun.length_eq]
        exact .of_stop (.broken hrun hbegun hin)

theorem marks_of_defect? {bs : Bytes} {d : Defect} (h : defect? bs = some d) : d.Marks 0 bs := by
  have hstart : run none [] = ([], none) := rfl
  exact marks_of_defectFrom hstart rfl h

theorem Stop.extensible_iff {w rest : Bytes} {length? : Option Nat} (h : Stop w rest length?)
    (s : String) : Extensible (encode s ++ (w ++ rest)) ↔ length? = none := by
  cases h with
  | cut hrun =>
    rw [List.append_nil]
    exact iff_of_true (extensible_of_underWay hrun) rfl
  | unfit hstart =>
    refine iff_of_false (not_extensible_of_broken (n := 1) ?_) (Option.some_ne_none 1)
    rw [List.singleton_append, run, step, begin, hstart]
    exact List.mem_cons_self
  | @broken _ _ p _ hrun _ hout =>
    refine iff_of_false (not_extensible_of_broken (n := p.taken) ?_) (Option.some_ne_none _)
    rw [run_append, hrun, run, step_broken hout]
    exact List.mem_cons_self

theorem Stop.piece {w rest : Bytes} {n : Nat} (h : Stop w rest (some n)) :
    w.length = n ∧ 1 ≤ n ∧ n ≤ 3 ∧ ∀ s, n = 1 ∨ Extensible (encode s ++ w) := by
  cases h with
  | unfit _ => exact ⟨rfl, Nat.le_refl 1, by decide, fun _ => .inl rfl⟩
  | broken hrun hw _ =>
    exact ⟨rfl, hw.bounds.1, hw.bounds.2, fun _ => .inr (extensible_of_underWay hrun)⟩

theorem Stop.take_one {w rest : Bytes} {n : Nat} (h : Stop w rest (some n)) :
    Stop w (rest.take 1) (some n) := by
  cases h with
  | unfit hstart => exact .unfit hstart
  | broken hrun hw hout => exact .broken hrun hw hout

/-! ## What a defect says -/

theorem le_index_of_valid_take {bs : Bytes} {d : Defect} (h : defect? bs = some d) {n : Nat}
    (hn : n ≤ bs.length) (hvalid : Valid (bs.take n)) : n ≤ d.index := by
  obtain ⟨s, hs⟩ := valid_iff.1 hvalid
  have hlen : (encode s).length = n := by rw [hs, List.length_take_of_le hn]
  rw [← List.take_append_drop n bs, ← hs, defect?_encode_append, hlen] at h
  exact le_index_of_defectFrom h

theorem Defect.message_ne_incomplete (index n : Nat) :
    Defect.message ⟨index, some n⟩ ≠ s!"incomplete utf-8 byte sequence from index {index}" := by
  intro h
  have hthird := congrArg (fun s => s.toList[2]?) h
  rw [Defect.message] at hthird
  simp only [String.toList_append] at hthird
  cases hthird

/-- The bytes are valid up to the index of the defect and no further. They end in an incomplete
sequence if more bytes can still make them valid. Otherwise a piece is rejected: one byte, or the
beginning of a character as far as the bytes go on like one. -/
structure Defect.Explains (d : Defect) (bs : Bytes) : Prop where
  index_le : d.index ≤ bs.length
  valid_take : Valid (bs.take d.index)
  le_index : ∀ n ≤ bs.length, Valid (bs.take n) → n ≤ d.index
  incomplete_iff :
    d.message = s!"incomplete utf-8 byte sequence from index {d.index}" ↔ Extensible bs
  rejected : ¬ Extensible bs → ∃ n,
    d.message = s!"invalid utf-8 sequence of {n} bytes from index {d.index}" ∧
    1 ≤ n ∧ n ≤ 3 ∧ d.index + n ≤ bs.length ∧
    (n = 1 ∨ Extensible (bs.take (d.index + n))) ∧ ¬ Extensible (bs.take (d.index + n + 1))

theorem Defect.explains_of_defect? {bs : Bytes} {d : Defect} (h : defect? bs = some d) :
    d.Explains bs := by
  obtain ⟨cs, w, rest, hbs, hindex, hstop⟩ := marks_of_defect? h
  rw [Nat.zero_add] at hindex
  have htake (n : Nat) : bs.take (d.index + n) =
      encode (String.ofList cs) ++ (w ++ rest).take n := by
    rw [hbs, hindex, List.take_length_add_append]
  have hextensible := hstop.extensible_iff (String.ofList cs)
  rw [← hbs] at hextensible
  refine ⟨?_, ?_, fun n => le_index_of_valid_take h, ?_, fun hnot => ?_⟩
  · rw [hbs, hindex, List.length_append]
    exact Nat.le_add_right _ _
  · have hprefix := htake 0
    rw [List.take_zero, List.append_nil] at hprefix
    exact hprefix ▸ valid_encode _
  · rw [hextensible]
    rcases d with ⟨index, _ | n⟩
    · exact iff_of_true rfl rfl
    · exact iff_of_false (message_ne_incomplete index n) (Option.some_ne_none n)
  · rcases d with ⟨index, _ | n⟩
    · exact absurd (hextensible.2 rfl) hnot
    · obtain ⟨rfl, hpos, hle, hpiece⟩ := hstop.piece
      have hnext :=
        (hstop.take_one.extensible_iff (String.ofList cs)).not.2 (Option.some_ne_none _)
      refine ⟨w.length, rfl, hpos, hle, ?_, ?_, ?_⟩
      · rw [hbs, hindex, List.length_append, List.length_append]
        omega
      · rw [htake, List.take_left]
        exact hpiece _
      · rw [Nat.add_assoc, htake, List.take_length_add_append]
        exact hnext

theorem decodeLossy_encode_append (s : String) (bs : Bytes) :
    decodeLossy (encode s ++ bs) = s ++ decodeLossy bs := by
  apply String.toList_injective
  rw [String.toList_append, decodeLossy, decodeLossy, String.toList_ofList, String.toList_ofList,
    scan_encode_append, List.map_append, List.map_map]
  simp [Function.comp_def, Piece.repaired]

end Utf8

/-! ## Bytes that become text -/

namespace Reader

/-- What becomes of the bytes of a text once they have been read. -/
def repair (bytes : Bytes) : Reader String := do
  if let some defect := Utf8.defect? bytes then report (.repairedText defect)
  return Utf8.decodeLossy bytes

theorem repair_apply (bytes input : Bytes) :
    repair bytes input = ⟨.ok (Utf8.decodeLossy bytes), input, Event.ofText bytes⟩ := by
  unfold repair Event.ofText
  cases Utf8.defect? bytes <;> simp [report, bind_apply]

/-- Bytes that are UTF-8 become the text that they spell, and nothing is reported. All other bytes
are changed, which is reported once, with the defect that is the cause. The text is never shorter
than the bytes, its own bytes stay as they are, and a text in front of the bytes stays in front. -/
theorem repair_exact :
    text = (do repair (← take (← length))) ∧
    ∀ bytes input : Bytes, ∃ s es, repair bytes input = ⟨.ok s, input, es⟩ ∧
      (Utf8.Valid bytes → Utf8.encode s = bytes ∧ es = []) ∧
      (¬ Utf8.Valid bytes → Utf8.encode s ≠ bytes ∧ ∃ d, es = [.repairedText d] ∧
        (Event.repairedText d).level = .debug ∧
        (Event.repairedText d).details = [("err", d.message)] ∧ d.Explains bytes) ∧
      bytes.length ≤ (Utf8.encode s).length ∧
      repair (Utf8.encode s) input = ⟨.ok s, input, []⟩ ∧
      ∀ t, (repair (Utf8.encode t ++ bytes) input).result = .ok (t ++ s) := by
  refine ⟨rfl, fun bytes input => ⟨_, _, repair_apply bytes input, fun h => ?_, fun h => ?_,
    Utf8.length_le_encode_decodeLossy bytes, ?_, fun t => ?_⟩⟩
  · have hnone := Utf8.valid_iff_defect?_eq_none.1 h
    exact ⟨Utf8.defect?_eq_none_iff.1 hnone, by rw [Event.ofText, hnone]; rfl⟩
  · rw [Utf8.valid_iff_defect?_eq_none] at h
    obtain ⟨d, hd⟩ := Option.ne_none_iff_exists'.1 h
    refine ⟨fun heq => h (Utf8.defect?_eq_none_iff.2 heq), d, ?_, rfl, rfl,
      Utf8.Defect.explains_of_defect? hd⟩
    rw [Event.ofText, hd]
    rfl
  · rw [repair_apply, Utf8.decodeLossy_encode, Event.ofText, Utf8.defect?_encode]
    rfl
  · rw [repair_apply, Utf8.decodeLossy_encode_append]

/-- A character of four bytes lacks its last, and one of three is cut at the end. The first is the
defect. -/
theorem repair_exact_broken_then_cut :
    let bytes : Bytes := [0x61, 0xc3, 0xa9, 0xf0, 0x9f, 0x98, 0x41, 0xe2, 0x82]
    let d : Utf8.Defect := ⟨3, some 3⟩
    repair bytes [7] = ⟨.ok "aé\uFFFDA\uFFFD", [7], [.repairedText d]⟩ ∧
    ¬ Utf8.Valid bytes ∧ d.Explains bytes ∧
    ∀ t, (repair (Utf8.encode t ++ bytes) [7]).result = .ok (t ++ "aé\uFFFDA\uFFFD") := by
  intro bytes d
  have hbytes : repair bytes [7] = ⟨.ok "aé\uFFFDA\uFFFD", [7], [.repairedText d]⟩ := rfl
  have hinvalid : ¬ Utf8.Valid bytes := by decide +kernel
  obtain ⟨s, es, hread, -, hbroken, -, -, hprefix⟩ := repair_exact.2 bytes [7]
  obtain ⟨-, d', rfl, -, -, hexplains⟩ := hbroken hinvalid
  have hsame := hbytes.symm.trans hread
  obtain rfl : "aé\uFFFDA\uFFFD" = s := Except.ok.inj (congrArg Reading.result hsame)
  obtain rfl : d = d' :=
    Event.repairedText.inj (List.head_eq_of_cons_eq (congrArg Reading.events hsame))
  exact ⟨hbytes, hinvalid, hexplains, hprefix⟩

end Reader

end PeerWire
