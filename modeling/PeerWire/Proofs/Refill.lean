import PeerWire.Proofs.Images
import PeerWire.Record

/-!
# Refilled targets

A target that is refilled from one buffer after the other holds, after each call, the record of the
last buffer that was accepted, or what it held at first (`Decl.Holds`). A call answers and reports
what reading its buffer alone does, so neither the target nor an earlier call shows in it. Main
statement: `Decl.refillEach_exact`.
-/

namespace PeerWire.Decl

section

variable [Defaults] {d : Decl}

/-- Refills one target from one buffer after the other. Each call comes with the target after it. -/
def refillEach (d : Decl) (target : d.Val) : List Bytes → List (Report WireError Bytes × d.Val)
  | [] => []
  | buffer :: buffers =>
    let call := d.refill target buffer
    call :: d.refillEach call.2 buffers

def Rejects (d : Decl) (buffer : Bytes) : Prop := ∃ e, (d.unmarshal buffer).result = .error e

/-- What a target holds after calls on the buffers `seen`: all of what it held first, or all of what
was read from the last buffer that was not rejected. -/
inductive Holds (d : Decl) (first : d.Val) : (seen : List Bytes) → d.Val → Prop where
  | untouched {seen : List Bytes} : (∀ buffer ∈ seen, d.Rejects buffer) → Holds d first seen first
  | refilled {older newer : List Bytes} {buffer rest : Bytes} {v : d.Val} {es : List Event} :
    d.unmarshal buffer = ⟨.ok (v, rest), es⟩ → (∀ buffer ∈ newer, d.Rejects buffer) →
      Holds d first (older ++ buffer :: newer) v

/-! ## One call -/

theorem refill_fst (target : d.Val) (buffer : Bytes) :
    (d.refill target buffer).1 = (d.unmarshal buffer).map Prod.snd := by
  unfold refill
  rcases d.unmarshal buffer with ⟨e | ⟨v, rest⟩, es⟩ <;> rfl

theorem Holds.concat_rejected {first v : d.Val} {seen : List Bytes} {buffer : Bytes}
    (h : d.Holds first seen v) (hbuffer : d.Rejects buffer) :
    d.Holds first (seen ++ [buffer]) v := by
  cases h with
  | untouched hseen =>
    exact .untouched (List.forall_mem_append.2 ⟨hseen, List.forall_mem_singleton.2 hbuffer⟩)
  | refilled hread hnewer =>
    rw [List.append_assoc, List.cons_append]
    exact .refilled hread
      (List.forall_mem_append.2 ⟨hnewer, List.forall_mem_singleton.2 hbuffer⟩)

theorem Holds.refill {first v : d.Val} {seen : List Bytes} (h : d.Holds first seen v)
    (buffer : Bytes) : d.Holds first (seen ++ [buffer]) (d.refill v buffer).2 := by
  cases hread : d.unmarshal buffer with
  | mk result es =>
    cases result with
    | error e =>
      have hrejects : d.Rejects buffer := ⟨e, by rw [hread]⟩
      rw [Decl.refill, hread]
      exact h.concat_rejected hrejects
    | ok read =>
      rw [Decl.refill, hread]
      exact .refilled hread nofun

/-! ## Runs -/

theorem map_fst_refillEach (target : d.Val) (buffers : List Bytes) :
    (d.refillEach target buffers).map Prod.fst =
      buffers.map fun buffer => (d.unmarshal buffer).map Prod.snd := by
  induction buffers generalizing target with
  | nil => rfl
  | cons buffer buffers ih => rw [refillEach, List.map_cons, List.map_cons, refill_fst, ih]

theorem Holds.refillEach {first target : d.Val} {seen : List Bytes}
    (h : d.Holds first seen target) (buffers : List Bytes) {i : Nat}
    {call : Report WireError Bytes × d.Val}
    (hcall : (d.refillEach target buffers)[i]? = some call) :
    d.Holds first (seen ++ buffers.take (i + 1)) call.2 := by
  -- The target is what one call hands on to the next, and its buffer goes to those seen.
  induction buffers generalizing target seen i with
  | nil => cases hcall
  | cons buffer buffers ih =>
    cases i with
    | zero =>
      cases hcall
      exact h.refill buffer
    | succ i =>
      have hrest := ih (h.refill buffer) hcall
      rwa [List.append_assoc] at hrest

theorem strip_of_unmarshal {buffer rest : Bytes} {v : d.Val} {es : List Event}
    (h : d.unmarshal buffer = ⟨.ok (v, rest), es⟩) : d.ty.strip v = v := by
  have hread := Reader.front_eq_ok.1 h
  exact Ty.strip_of_decode (by rw [hread])

/-- Refilling is all or nothing over whole runs. Each call answers and reports what reading its
buffer alone does. After each call the target holds what was read from the last buffer that was
accepted, or what it held at first, if none was; and what is read has defaults wherever a member
does not travel, so nothing of an older target is left in it. -/
theorem refillEach_exact (d : Decl) (target : d.Val) (buffers : List Bytes) :
    let calls := d.refillEach target buffers
    calls.map Prod.fst = buffers.map (fun buffer => (d.unmarshal buffer).map Prod.snd) ∧
    (∀ i call, calls[i]? = some call → d.Holds target (buffers.take (i + 1)) call.2) ∧
    ∀ buffer v rest es, d.unmarshal buffer = ⟨.ok (v, rest), es⟩ → d.ty.strip v = v := by
  have huntouched : d.Holds target [] target := .untouched (fun _ h => nomatch h)
  exact ⟨map_fst_refillEach target buffers, fun _ _ hcall => huntouched.refillEach buffers hcall,
    fun _ _ _ _ h => strip_of_unmarshal h⟩

end

section

attribute [local instance] Defaults.zero

/-- The first and the last buffer end inside the pair. Neither the draft nor the cache of the first
target is left after the call in between. -/
theorem refillEach_exact_cut_buffers :
    let pair : Decl := ⟨.selection, "Pair",
      [.named "left" .u8, ⟨some "cache", .u8, false⟩, .named "right" .u8]⟩
    let note : Decl := ⟨.selection, "Note",
      [.named "at" .u16, ⟨some "draft", .string, false⟩, .named "pair" pair.ty]⟩
    let first : note.Val := ((7 : UInt16), "old", ((1 : UInt8), (2 : UInt8), (3 : UInt8), ()), ())
    let second : note.Val := ((9 : UInt16), "", ((4 : UInt8), (0 : UInt8), (5 : UInt8), ()), ())
    let buffers : List Bytes := [[0, 1], [0, 9, 4, 5, 6], [0, 8, 1]]
    let calls := note.refillEach first buffers
    calls.map Prod.fst = [⟨.error (.insufficientBytes 1 0), []⟩, ⟨.ok [6], []⟩,
      ⟨.error (.insufficientBytes 1 0), []⟩] ∧
    calls.map Prod.snd = [first, second, second] ∧
    note.Holds first buffers second ∧ note.ty.strip second = second := by
  intro pair note first second buffers calls
  obtain ⟨hanswers, hholds, hstrip⟩ := refillEach_exact note first buffers
  exact ⟨hanswers, rfl, hholds 2 _ rfl, hstrip [0, 9, 4, 5, 6] second [6] [] rfl⟩

end

end PeerWire.Decl
