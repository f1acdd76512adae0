import PeerWire.Proofs.Prefixes

/-!
# Steps on one cursor

A cursor that is read from step by step, each step on what the ones before it left, also after a
failure. Whatever a step is made of, it comes down to raw reads: it takes bytes from the place of
the cursor and moves behind them, or finds too few and stays (`Script.exec`). All decoders are
scripts of this kind (`Reader.Scripted`), so no step moves the cursor back or out of its buffer, and
none depends on what lies before its place. Main statement: `Cursor.run_after`.
-/

namespace PeerWire

namespace Cursor

/-- A place inside the buffer, with what lies behind it. -/
structure Sound (c : Cursor) (buffer : Bytes) : Prop where
  buffer_eq : c.buffer = buffer
  position_le : c.position ≤ buffer.length
  position_add_remaining : c.position + c.remaining = buffer.length
  rest_eq : c.rest = buffer.drop c.position

theorem sound_of_le {buffer : Bytes} {position : Nat} (h : position ≤ buffer.length) :
    (⟨buffer, position⟩ : Cursor).Sound buffer where
  buffer_eq := rfl
  position_le := h
  position_add_remaining := Nat.add_sub_of_le h
  rest_eq := rfl

theorem sound_ofBytes (buffer : Bytes) : (ofBytes buffer).Sound buffer :=
  sound_of_le (Nat.zero_le _)

theorem length_extract {c : Cursor} {n : Nat} (h : n ≤ c.remaining) :
    (c.buffer.extract c.position (c.position + n)).length = n := by
  rw [remaining] at h
  rw [List.extract_eq_take_drop, List.length_take, List.length_drop]
  omega

/-- The next `n` bytes behind the place of the cursor. -/
def slice (c : Cursor) (n : Nat) (h : n ≤ c.remaining) : Block n :=
  ⟨c.buffer.extract c.position (c.position + n), length_extract h⟩

/-! ## Readers on a cursor -/

section

variable {α β : Type} {c : Cursor} {r : Reader α}

/-- What a reader leaves is what lies behind the place to which it moves the cursor. -/
theorem rest_run (h : (r c.rest).rest <:+ c.rest) : (c.run r).2.rest = (r c.rest).rest := by
  calc (c.run r).2.rest
      = c.buffer.drop (c.position + (c.remaining - (r c.rest).rest.length)) := rfl
    _ = c.rest.drop (c.remaining - (r c.rest).rest.length) := List.drop_drop.symm
    _ = c.rest.drop (c.rest.length - (r c.rest).rest.length) := by rw [length_rest]
    _ = (r c.rest).rest := (List.suffix_iff_eq_drop.1 h).symm

theorem sound_run {buffer : Bytes} (hc : c.Sound buffer) : (c.run r).2.Sound buffer := by
  obtain ⟨rfl, -, htotal, -⟩ := hc
  exact sound_of_le (htotal ▸ Nat.add_le_add_left (Nat.sub_le _ _) _)

theorem run_of_eq {result : Except WireError α} {rest : Bytes} {es : List Event}
    (h : r c.rest = ⟨result, rest, es⟩) : c.run r =
      (⟨result, es⟩, ⟨c.buffer, c.position + (c.remaining - rest.length)⟩) := by
  unfold run
  rw [h]

/-- A run of a reader, told by what the reader does and how far the cursor moves. -/
theorem eq_of_run {result : Except WireError α} {es : List Event} {c' : Cursor}
    (hr : (r c.rest).rest <:+ c.rest) (h : c.run r = (⟨result, es⟩, c')) :
    r c.rest = ⟨result, c'.rest, es⟩ ∧ c'.buffer = c.buffer ∧ c.position ≤ c'.position ∧
      c'.position + c'.remaining = c.position + c.remaining := by
  have hrest := rest_run hr
  have hlen := hr.length_le
  rcases hread : r c.rest with ⟨result', mid, es'⟩
  rw [hread, h] at hrest
  rw [hread, length_rest] at hlen
  have hremaining : c'.remaining = mid.length := (length_rest c').symm.trans (congrArg _ hrest)
  rw [run_of_eq hread] at h
  obtain ⟨hreport, hcursor⟩ := Prod.mk.inj h
  cases hreport
  have hposition : c.position + (c.remaining - mid.length) = c'.position :=
    congrArg position hcursor
  have hmid : mid.length ≤ c.remaining := hlen
  refine ⟨congrArg (Reading.mk _ · _) hrest.symm, (congrArg buffer hcursor).symm, ?_, ?_⟩
  · omega
  · omega

theorem run_bind_of_error {f : α → Reader β} {c' : Cursor} {e : WireError} {es : List Event}
    (hr : (r c.rest).rest <:+ c.rest) (h : c.run r = (⟨.error e, es⟩, c')) :
    c.run (r >>= f) = (⟨.error e, es⟩, c') := by
  obtain ⟨hread, hbuffer, hle, htotal⟩ := eq_of_run hr h
  rw [run_of_eq (Reader.bind_eq_error.2 (.inl hread)), length_rest, ← hbuffer]
  congr 2
  omega

/-- A reader made of two parts moves the cursor as one part after the other does. -/
theorem run_bind_of_ok {f : α → Reader β} {c' : Cursor} {a : α} {es : List Event}
    (hr : (r c.rest).rest <:+ c.rest) (h : c.run r = (⟨.ok a, es⟩, c'))
    (hf : (f a c'.rest).rest <:+ c'.rest) : c.run (r >>= f) =
      (⟨(c'.run (f a)).1.result, es ++ (c'.run (f a)).1.events⟩, (c'.run (f a)).2) := by
  obtain ⟨hread, hbuffer, hle, htotal⟩ := eq_of_run hr h
  have hlast := hf.length_le
  rw [length_rest] at hlast
  rw [run_of_eq (Reader.bind_of_ok hread), ← hbuffer]
  show (_, Cursor.mk _ _) = (_, Cursor.mk _ _)
  congr 2
  omega

theorem run_of_stay {result : Except WireError α} {es : List Event}
    (h : r c.rest = ⟨result, c.rest, es⟩) : c.run r = (⟨result, es⟩, c) := by
  rw [run_of_eq h, length_rest, Nat.sub_self]
  rfl

/-- A fresh cursor over the bytes that are left comes to the same report by as many bytes. -/
theorem run_ofBytes_rest :
    (ofBytes c.rest).run r = ((c.run r).1, ⟨c.rest, (c.run r).2.position - c.position⟩) := by
  have hmoved : (c.run r).2.position - c.position = c.rest.length - (r c.rest).rest.length := by
    rw [length_rest]
    exact Nat.add_sub_cancel_left _ _
  rw [run_ofBytes, hmoved]
  rfl

end

/-! ## Raw reads -/

theorem suffix_block (n : Nat) (input : Bytes) : (Reader.block n input).rest <:+ input := by
  unfold Reader.block
  split
  · exact List.drop_suffix n input
  · exact List.suffix_rfl

theorem run_block {c : Cursor} {n : Nat} (h : n ≤ c.remaining) :
    c.run (Reader.block n) = (⟨.ok (c.slice n h), []⟩, ⟨c.buffer, c.position + n⟩) := by
  have hslice : (c.slice n h).val = c.rest.take n := by
    show c.buffer.extract c.position (c.position + n) = (c.buffer.drop c.position).take n
    rw [List.extract_eq_take_drop, Nat.add_sub_cancel_left]
  have hread := Reader.block_append (c.slice n h) (c.rest.drop n)
  rw [hslice, List.take_append_drop] at hread
  rw [Cursor.run_of_eq hread, List.length_drop, length_rest, Nat.sub_sub_self h]

theorem run_block_short {c : Cursor} {n : Nat} (h : c.remaining < n) :
    c.run (Reader.block n) = (⟨.error (.insufficientBytes n c.remaining), []⟩, c) := by
  rw [← length_rest] at h ⊢
  exact run_of_stay (Reader.block_short h)

theorem run_take {c : Cursor} {n : Nat} (h : n ≤ c.remaining) :
    c.run (Reader.take n) = (⟨.ok (c.slice n h).val, []⟩, ⟨c.buffer, c.position + n⟩) := by
  rw [Reader.take, run_bind_of_ok (suffix_block n c.rest) (run_block h) List.suffix_rfl,
    run_of_stay rfl]
  rfl

theorem run_take_short {c : Cursor} {n : Nat} (h : c.remaining < n) :
    c.run (Reader.take n) = (⟨.error (.insufficientBytes n c.remaining), []⟩, c) :=
  run_bind_of_error (suffix_block n c.rest) (run_block_short h)

end Cursor

/-! ## Scripts -/

/-- What is done with a cursor, raw read by raw read: each goes on with the bytes that it took. -/
inductive Script (α : Type) where
  | done (a : α)
  | fail (e : WireError)
  | report (e : Event) (next : Script α)
  /-- Asks how many bytes are left. -/
  | remaining (next : Nat → Script α)
  | read (n : Nat) (next : Block n → Script α)

namespace Script

variable {α β : Type}

/-- Carries a script out on the buffer of a cursor. A raw read takes the bytes behind its place and
moves behind them, or wants more bytes than are left and stays. -/
def exec : Script α → Cursor → Report WireError α × Cursor
  | done a, c => (⟨.ok a, []⟩, c)
  | fail e, c => (⟨.error e, []⟩, c)
  | report e next, c =>
    let (rest, c') := next.exec c
    (⟨rest.result, e :: rest.events⟩, c')
  | remaining next, c => (next c.remaining).exec c
  | read n next, c =>
    if h : n ≤ c.remaining then
      (next (c.slice n h)).exec { c with position := c.position + n }
    else (⟨.error (.insufficientBytes n c.remaining), []⟩, c)

/-- The same script on the bytes behind the cursor alone. -/
def reader : Script α → Reader α
  | done a => pure a
  | fail e => Reader.fail e
  | report e next => do
    Reader.report e
    next.reader
  | remaining next => do (next (← Reader.remaining)).reader
  | read n next => do (next (← Reader.block n)).reader

def bind : Script α → (α → Script β) → Script β
  | done a, f => f a
  | fail e, _ => fail e
  | report e next, f => report e (next.bind f)
  | remaining next, f => remaining fun n => (next n).bind f
  | read n next, f => read n fun bs => (next bs).bind f

theorem reader_bind (s : Script α) (f : α → Script β) :
    (s.bind f).reader = s.reader >>= fun a => (f a).reader := by
  induction s with
  | done a => rw [bind, reader, pure_bind]
  | fail e => rfl
  | report e next ih => rw [bind, reader, reader, ih, bind_assoc]
  | remaining next ih =>
    rw [bind, reader, reader, bind_assoc]
    congr 1
    funext n
    exact ih n
  | read n next ih =>
    rw [bind, reader, reader, bind_assoc]
    congr 1
    funext bs
    exact ih bs

theorem suffix_reader (s : Script α) (input : Bytes) : (s.reader input).rest <:+ input := by
  induction s generalizing input with
  | done a => exact List.suffix_rfl
  | fail e => exact List.suffix_rfl
  | report e next ih => exact ih input
  | remaining next ih => exact ih input.length input
  | read n next ih =>
    have hsuffix := Cursor.suffix_block n input
    rw [reader]
    rcases hread : Reader.block n input with ⟨e | bs, rest, es⟩
    · rw [Reader.bind_eq_error.2 (.inl hread)]
      rwa [hread] at hsuffix
    · rw [Reader.bind_of_ok hread]
      rw [hread] at hsuffix
      exact (ih bs rest).trans hsuffix

/-- Raw read by raw read on a buffer, a script does what it does on the bytes behind the cursor. -/
theorem exec_eq_run (s : Script α) (c : Cursor) : s.exec c = c.run s.reader := by
  induction s generalizing c with
  | done a => exact (Cursor.run_of_stay rfl).symm
  | fail e => exact (Cursor.run_of_stay rfl).symm
  | report e next ih =>
    have hreport : c.run (Reader.report e) = (⟨.ok (), [e]⟩, c) := Cursor.run_of_stay rfl
    rw [reader, Cursor.run_bind_of_ok List.suffix_rfl hreport (next.suffix_reader _), ← ih, exec]
    rfl
  | remaining next ih =>
    have hremaining : c.run Reader.remaining = (⟨.ok c.remaining, []⟩, c) :=
      Cursor.run_of_stay (by rw [← Cursor.length_rest]; rfl)
    rw [reader, Cursor.run_bind_of_ok List.suffix_rfl hremaining ((next _).suffix_reader _), ← ih,
      exec]
    rfl
  | read n next ih =>
    have hsuffix := Cursor.suffix_block n c.rest
    rw [exec, reader]
    split
    · rename_i h
      rw [Cursor.run_bind_of_ok hsuffix (Cursor.run_block h) ((next _).suffix_reader _), ← ih]
      rfl
    · rename_i h
      exact (Cursor.run_bind_of_error hsuffix (Cursor.run_block_short (Nat.lt_of_not_le h))).symm

end Script

/-! ## Decoders are scripts -/

namespace Reader

variable {α β : Type}

/-- The reader takes bytes by raw reads only. -/
def Scripted (r : Reader α) : Prop := ∃ s : Script α, s.reader = r

namespace Scripted

theorem pure (a : α) : (pure a : Reader α).Scripted := ⟨.done a, rfl⟩

theorem report (e : Event) : (report e).Scripted :=
  ⟨.report e (.done ()), by rw [Script.reader, Script.reader, bind_pure_unit]⟩

theorem remaining : remaining.Scripted :=
  ⟨.remaining .done, by rw [Script.reader]; exact bind_pure _⟩

theorem block (n : Nat) : (block n).Scripted :=
  ⟨.read n .done, by rw [Script.reader]; exact bind_pure _⟩

theorem ofExcept : (x : Except WireError α) → (ofExcept x).Scripted
  | .ok a => pure a
  | .error e => ⟨.fail e, rfl⟩

theorem bind {r : Reader α} {f : α → Reader β} (hr : r.Scripted) (hf : ∀ a, (f a).Scripted) :
    (r >>= f).Scripted := by
  obtain ⟨s, rfl⟩ := hr
  refine ⟨s.bind fun a => (hf a).choose, ?_⟩
  rw [Script.reader_bind]
  congr 1
  funext a
  exact (hf a).choose_spec

theorem take (n : Nat) : (take n).Scripted := (block n).bind fun _ => pure _

theorem number (width : Nat) : (number width).Scripted := (take width).bind fun _ => pure _

theorem u8 : u8.Scripted := (number 1).bind fun _ => pure _

theorem u16 : u16.Scripted := (number 2).bind fun _ => pure _

theorem u32 : u32.Scripted := (number 4).bind fun _ => pure _

theorem u64 : u64.Scripted := (number 8).bind fun _ => pure _

theorem flag : flag.Scripted := by
  refine u8.bind fun byte => ?_
  dsimp only
  split
  · exact (report _).bind fun _ => pure _
  · exact pure _

theorem length : length.Scripted := u32.bind fun _ => pure _

theorem text : text.Scripted := by
  refine length.bind fun n => (take n).bind fun bytes => ?_
  dsimp only
  split
  · exact (report _).bind fun _ => pure _
  · exact pure _

theorem collect {element : Reader α} (h : element.Scripted) (count : Nat) (items : Array α) :
    (collect element count items).Scripted := by
  induction count generalizing items with
  | zero => exact pure items
  | succ count ih => exact h.bind fun a => ih (items.push a)

theorem list (shape : Shape) {element : Reader α} (h : element.Scripted) :
    (list shape element).Scripted :=
  length.bind fun count => remaining.bind fun _ => (ofExcept _).bind fun _ =>
    (h.collect count _).bind fun _ => pure _

end Scripted

end Reader

mutual
theorem Shape.scripted_decode : (k : Shape) → k.decode.Scripted
  | .u8 => Reader.Scripted.u8.bind fun _ => .pure _
  | .u16 => Reader.Scripted.u16.bind fun _ => .pure _
  | .u32 => Reader.Scripted.u32.bind fun _ => .pure _
  | .u64 => Reader.Scripted.u64.bind fun _ => .pure _
  | .bool => Reader.Scripted.flag.bind fun _ => .pure _
  | .fixedBytes size => (Reader.Scripted.take size).bind fun _ => .pure _
  | .string => Reader.Scripted.text.bind fun _ => .pure _
  | .list element => (Reader.Scripted.list element element.scripted_decode).bind fun _ => .pure _
  | .optional inner => by
    refine Reader.Scripted.flag.bind fun b => ?_
    cases b with
    | false => exact .pure _
    | true => exact inner.scripted_decode.bind fun _ => .pure _
  | .record _ fields => (Shape.scripted_decodeFields fields).bind fun _ => .pure _
theorem Shape.scripted_decodeFields : (fields : List Field) → (decodeFields fields).Scripted
  | [] => .pure _
  | ⟨_, _, s⟩ :: fields =>
    s.scripted_decode.bind fun _ => (Shape.scripted_decodeFields fields).bind fun _ => .pure _
end

mutual
theorem Ty.scripted_decode [Defaults] : (t : Ty) → t.decode.Scripted
  | .u8 => Reader.Scripted.u8
  | .u16 => Reader.Scripted.u16
  | .u32 => Reader.Scripted.u32
  | .u64 => Reader.Scripted.u64
  | .bool => Reader.Scripted.flag
  | .string => Reader.Scripted.text
  | .array n => Reader.Scripted.block n
  | .list t => Reader.Scripted.list t.shape t.scripted_decode
  | .option t => by
    refine Reader.Scripted.flag.bind fun b => ?_
    cases b with
    | false => exact .pure _
    | true => exact t.scripted_decode.bind fun _ => .pure _
  | .boxed t => t.scripted_decode.bind fun _ => .pure _
  | .wrapper _ t => t.scripted_decode.bind fun _ => .pure _
  | .record .listing _ ms => Row.scripted_decode ms
  | .record .selection _ ms => (MarkedRow.scripted_decode ms).bind fun _ => .pure _
theorem Row.scripted_decode [Defaults] : (ms : List (Member Ty)) → (Row.decode ms).Scripted
  | [] => .pure _
  | ⟨_, t, _⟩ :: ms =>
    t.scripted_decode.bind fun _ => (Row.scripted_decode ms).bind fun _ => .pure _
theorem MarkedRow.scripted_decode [Defaults] : (ms : List (Member Ty)) →
    (MarkedRow.decode ms).Scripted
  | [] => .pure _
  | ⟨_, t, true⟩ :: ms =>
    t.scripted_decode.bind fun _ => (MarkedRow.scripted_decode ms).bind fun _ => .pure _
  | ⟨_, _, false⟩ :: ms => MarkedRow.scripted_decode ms
end

/-! ## Steps -/

/-- What a cursor is asked for: a number of bytes, as an array or into a buffer, a value of a
declared type or one of a shape. -/
inductive Step where
  | array (n : Nat)
  | buffer (n : Nat)
  | declared (t : Ty)
  | dynamic (k : Shape)

namespace Step

@[reducible] def Result : Step → Type
  | array n => Block n
  | buffer _ => Bytes
  | declared t => t.Val
  | dynamic _ => Value

def reader [Defaults] : (s : Step) → Reader s.Result
  | array n => Reader.block n
  | buffer n => Reader.take n
  | declared t => t.decode
  | dynamic k => k.decode

theorem scripted_reader [Defaults] : (s : Step) → s.reader.Scripted
  | array n => .block n
  | buffer n => .take n
  | declared t => t.scripted_decode
  | dynamic k => k.scripted_decode

end Step

namespace Cursor

/-- The cursor after some steps, of which any may have failed. -/
def after [Defaults] (c : Cursor) : List Step → Cursor
  | [] => c
  | s :: steps => (c.run s.reader).2.after steps

theorem sound_after [Defaults] {buffer : Bytes} {c : Cursor} (hc : c.Sound buffer)
    (steps : List Step) : (c.after steps).Sound buffer := by
  induction steps generalizing c with
  | nil => exact hc
  | cons s steps ih => exact ih (sound_run hc)

/-- After any steps the cursor is sound: it has its buffer still, and a place in it with all that is
left behind. From there a raw read takes the bytes behind that place, all that it wants or none. No
step moves the cursor back, and each does what it does on a fresh cursor over the bytes that are
left. That goes for values of types and shapes too, since they are read by scripts of raw reads. -/
theorem run_after [Defaults] :
    (∀ (buffer : Bytes) (steps : List Step),
      let c := (ofBytes buffer).after steps
      c.Sound buffer ∧
      (∀ n ≤ c.remaining, ∃ bs : Block n, bs.val = buffer.extract c.position (c.position + n) ∧
        c.run (Step.array n).reader = (⟨.ok bs, []⟩, ⟨buffer, c.position + n⟩) ∧
        c.run (Step.buffer n).reader = (⟨.ok bs.val, []⟩, ⟨buffer, c.position + n⟩)) ∧
      (∀ n > c.remaining,
        c.run (Step.array n).reader = (⟨.error (.insufficientBytes n c.remaining), []⟩, c) ∧
        c.run (Step.buffer n).reader = (⟨.error (.insufficientBytes n c.remaining), []⟩, c)) ∧
      ∀ s : Step,
        let c' := (c.run s.reader).2
        let fresh := (ofBytes (buffer.drop c.position)).run s.reader
        c'.Sound buffer ∧ c.position ≤ c'.position ∧
        fresh.1 = (c.run s.reader).1 ∧ fresh.2.position = c'.position - c.position) ∧
    ∀ s : Step, ∃ script : Script s.Result, ∀ c, script.exec c = c.run s.reader := by
  refine ⟨fun buffer steps => ?_, fun s => ?_⟩
  · intro c
    have hc : c.Sound buffer := sound_after (sound_ofBytes buffer) steps
    refine ⟨hc, fun n hn => ⟨c.slice n hn, ?_, ?_, ?_⟩, fun n hn => ?_, fun s => ?_⟩
    · rw [← hc.buffer_eq]
      rfl
    · rw [← hc.buffer_eq]
      exact run_block hn
    · rw [← hc.buffer_eq]
      exact run_take hn
    · exact ⟨run_block_short hn, run_take_short hn⟩
    · rw [← hc.rest_eq, run_ofBytes_rest]
      exact ⟨sound_run hc, Nat.le_add_right _ _, rfl, rfl⟩
  · obtain ⟨script, hscript⟩ := s.scripted_reader
    refine ⟨script, fun c => ?_⟩
    rw [script.exec_eq_run, hscript]

section

attribute [local instance] Defaults.zero

/-- A record that breaks off in its text. The two bytes behind the length of the text are still to
be had, and no third. -/
theorem run_after_cut_text :
    let buffer : Bytes := [7, 0, 0, 0, 5, 0x61, 0x62]
    let note : Shape := .record "Note" [⟨"open", 0, .bool⟩, ⟨"text", 1, .string⟩]
    (ofBytes buffer).after [.dynamic note] = ⟨buffer, 5⟩ ∧
    run ⟨buffer, 5⟩ (Step.buffer 2).reader = (⟨.ok [0x61, 0x62], []⟩, ⟨buffer, 7⟩) ∧
    run ⟨buffer, 5⟩ (Step.array 3).reader =
      (⟨.error (.insufficientBytes 3 2), []⟩, ⟨buffer, 5⟩) ∧
    run ⟨buffer, 5⟩ (Step.buffer 3).reader =
      (⟨.error (.insufficientBytes 3 2), []⟩, ⟨buffer, 5⟩) := by
  intro buffer note
  have hcut : (ofBytes buffer).after [.dynamic note] = ⟨buffer, 5⟩ := by decide +kernel
  obtain ⟨-, henough, hshort, -⟩ := run_after.1 buffer [.dynamic note]
  rw [hcut] at henough hshort
  obtain ⟨bs, hbs, -, hread⟩ := henough 2 (by decide)
  have htext : bs.val = [0x61, 0x62] := hbs
  exact ⟨hcut, htext ▸ hread, hshort 3 (by decide)⟩

end

end Cursor

end PeerWire
