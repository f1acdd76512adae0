import PeerWire.Peer.Boundary
import PeerWire.Proofs.JsonText

/-!
# The way through JSON and back

A type goes through JSON if each of its values is printed as a spelling of its form and is read from
its form again. By the laws of a library this passes from the parts of a type to the type: from the
elements to a list, from what may be absent to an option, and from the members to a record, whose
names differ. Main statement: `JsonLibrary.roundTrips_peer_records`.
-/

namespace PeerWire

/-! ## Types with forms -/

/-- Types made of records that have forms, of lists and of what may be absent, with numbers and text
at the bottom, and their forms of at most as many levels. -/
inductive Ty.HasForm (derived : Decl → Prop) : (levels : Nat) → Ty → Prop where
  | u8 {levels : Nat} : HasForm derived (levels + 1) .u8
  | u16 {levels : Nat} : HasForm derived (levels + 1) .u16
  | u64 {levels : Nat} : HasForm derived (levels + 1) .u64
  | string {levels : Nat} : HasForm derived (levels + 1) .string
  | list {levels : Nat} {t : Ty} : HasForm derived levels t → HasForm derived (levels + 1) (.list t)
  | option {levels : Nat} {t : Ty} :
    (∀ u, t ≠ .option u) → HasForm derived (levels + 1) t →
    HasForm derived (levels + 1) (.option t)
  | record {levels : Nat} {d : Decl} :
    derived d → (d.members.map Member.key).Nodup → (∀ m ∈ d.members, HasForm derived levels m.ty) →
    HasForm derived (levels + 1) d.ty

/-! ## Members -/

namespace Json

theorem mapM_eq_some_map {α β : Type} {f : α → Option β} {g : α → β} {as : List α}
    (h : ∀ a ∈ as, f a = some (g a)) : as.mapM f = some (as.map g) := by
  induction as with
  | nil => rfl
  | cons a as ih =>
    obtain ⟨ha, has⟩ := List.forall_mem_cons.1 h
    rw [List.mapM_cons, ha, ih has]
    rfl

theorem once_of_mem {object : List (String × Json)} (hkeys : (object.map Prod.fst).Nodup)
    {e : String × Json} (he : e ∈ object) : Once object e.1 e.2 := by
  unfold Once
  induction object with
  | nil => cases he
  | cons other object ih =>
    obtain ⟨hfresh, hkeys⟩ := List.nodup_cons.1 hkeys
    rcases List.mem_cons.1 he with rfl | he
    · rw [List.filter_cons, if_pos (beq_self_eq_true e.1), List.filter_eq_nil_iff.2]
      intro other hother hkey
      exact hfresh (List.mem_map.2 ⟨other, hother, eq_of_beq hkey⟩)
    · rw [List.filter_cons_of_neg, ih hkeys he]
      intro hkey
      exact hfresh (List.mem_map.2 ⟨e, he, (eq_of_beq hkey).symm⟩)

end Json

namespace JsonLibrary

variable {lib : JsonLibrary} {derived : Decl → Prop}

section

variable {members : List (Member Ty)}

theorem map_fst_entries (row : Row members) :
    (lib.entries members row).map Prod.fst = members.map Member.key := by
  induction members with
  | nil => rfl
  | cons m ms ih =>
    obtain ⟨v, row⟩ := row
    exact congrArg (m.key :: ·) (ih row)

theorem forall_entries (p : Json → Prop) (h : ∀ m ∈ members, ∀ v : m.ty.Val, p (lib.toJson m.ty v))
    (row : Row members) : ∀ e ∈ lib.entries members row, p e.2 := by
  induction members with
  | nil => exact fun e he => absurd he List.not_mem_nil
  | cons m ms ih =>
    obtain ⟨hm, hms⟩ := List.forall_mem_cons.1 h
    obtain ⟨v, row⟩ := row
    exact List.forall_mem_cons.2 ⟨hm v, ih hms row⟩

theorem holds_of_entries {object : List (String × Json)}
    (h : ∀ m ∈ members, ∀ v, lib.ofJson? m.ty (lib.toJson m.ty v) = some v) (row : Row members)
    (hobject : ∀ e ∈ lib.entries members row, Json.Once object e.1 e.2) :
    lib.Holds object members row := by
  induction members with
  | nil => trivial
  | cons m ms ih =>
    obtain ⟨hm, hms⟩ := List.forall_mem_cons.1 h
    obtain ⟨v, row⟩ := row
    obtain ⟨hfirst, hothers⟩ := List.forall_mem_cons.1 hobject
    exact ⟨⟨_, hfirst, hm v⟩, ih hms row hothers⟩

end

/-! ## Forms -/

theorem WritesForms.toJson_ne_null (hw : lib.WritesForms derived) {levels : Nat} {t : Ty}
    (h : t.HasForm derived levels) (ht : ∀ u, t ≠ .option u) (v : t.Val) :
    lib.toJson t v ≠ .null := by
  cases h with
  | u8 => rw [hw.u8]; exact Json.noConfusion
  | u16 => rw [hw.u16]; exact Json.noConfusion
  | u64 => rw [hw.u64]; exact Json.noConfusion
  | string => rw [hw.string]; exact Json.noConfusion
  | list _ => rw [hw.list]; exact Json.noConfusion
  | @option _ t _ _ => exact absurd rfl (ht t)
  | record h _ _ => rw [hw.record h]; exact Json.noConfusion

/-- Forms are read as the values that they were written for. -/
theorem ofJson?_toJson (hw : lib.WritesForms derived) (hr : lib.ReadsForms derived) {levels : Nat}
    {t : Ty} (h : t.HasForm derived levels) (v : t.Val) :
    lib.ofJson? t (lib.toJson t v) = some v := by
  induction h with
  | u8 => rw [hw.u8, hr.u8 v.toNat_lt, UInt8.ofNat_toNat]
  | u16 => rw [hw.u16, hr.u16 v.toNat_lt, UInt16.ofNat_toNat]
  | u64 => rw [hw.u64, hr.u64 v.toNat_lt, UInt64.ofNat_toNat]
  | string => rw [hw.string, hr.string]
  | list _ ih =>
    rw [hw.list]
    refine hr.list _ ?_
    rw [List.mapM_map]
    exact (Json.mapM_eq_some_map fun v _ => ih v).trans (congrArg some (List.map_id v))
  | option hopt h ih =>
    cases v with
    | none => rw [hw.absent, hr.absent]
    | some v =>
      rw [hw.present, hr.present _ (hw.toJson_ne_null h hopt v), ih]
      rfl
  | record hd hkeys _ ih =>
    rw [hw.record hd]
    refine hr.record hd (holds_of_entries ih v fun e he => Json.once_of_mem ?_ he)
    rw [map_fst_entries]
    exact hkeys

/-- What is printed for a form spells it, whatever is behind. -/
theorem spells_toJson (hw : lib.WritesForms derived) (hp : lib.PrintsCompact) {levels : Nat}
    {t : Ty} (h : t.HasForm derived levels) (v : t.Val) (rest : List Char) :
    Json.Spells levels (lib.print (lib.toJson t v) ++ rest) (lib.toJson t v) rest := by
  induction h generalizing rest with
  | u8 =>
    have hlt := Nat.lt_trans v.toNat_lt (by decide : UInt8.size < UInt64.size)
    rw [hw.u8, hp.nat hlt]
    exact .number hlt
  | u16 =>
    have hlt := Nat.lt_trans v.toNat_lt (by decide : UInt16.size < UInt64.size)
    rw [hw.u16, hp.nat hlt]
    exact .number hlt
  | u64 =>
    rw [hw.u64, hp.nat v.toNat_lt]
    exact .number v.toNat_lt
  | string =>
    rw [hw.string, hp.text, List.cons_append, List.append_assoc, List.singleton_append]
    nth_rewrite 2 [← String.ofList_toList (s := v)]
    exact .string (Json.quotation_escaped v.toList rest)
  | list _ ih =>
    rw [hw.list, hp.array, List.map_map, List.cons_append, List.append_assoc, List.singleton_append]
    exact .array (Json.listed_intercalate (fun v _ rest => ih v rest) rest)
  | option _ _ ih =>
    cases v with
    | none =>
      rw [hw.absent, hp.null]
      exact .null
    | some v =>
      rw [hw.present]
      exact ih v rest
  | record hd _ _ ih =>
    rw [hw.record hd, hp.record, List.cons_append, List.append_assoc, List.singleton_append]
    have hvalues := forall_entries
      (fun j => ∀ rest, Json.Spells _ (lib.print j ++ rest) j rest) ih v
    refine .object (Json.listed_intercalate (fun (key, j) he rest => ?_) rest)
    simp only [hp.text, List.cons_append, List.append_assoc]
    exact .mk (Json.quotation_escaped key.toList _) .none .none (hvalues (key, j) he rest)

/-! ## Records -/

variable (lib) in
/-- Reading undoes writing, and no two values are written alike. -/
structure RoundTrips (α : Type) [Record α] : Prop where
  parse?_write (a : α) : lib.parse? (lib.write a) = some a
  write_injective : Function.Injective (lib.write : α → List Char)

theorem roundTrips_of_hasForm (hw : lib.WritesForms derived) (hr : lib.ReadsForms derived)
    (hp : lib.PrintsCompact) (hs : lib.ReadsStandard) {α : Type} [Record α]
    (h : (Record.decl α).ty.HasForm derived 127) : lib.RoundTrips α := by
  have hparse (a : α) : lib.parse? (lib.write a) = some a := by
    have hspells := spells_toJson hw hp h (Record.toRow a) []
    rw [List.append_nil] at hspells
    have hread := hs.read ⟨_, [], .none, hspells, .none⟩
    rw [parse?, write, hread, Option.bind_eq_bind, Option.bind_some, ofJson?_toJson hw hr h]
    exact congrArg some (Record.ofRow_toRow a)
  refine ⟨hparse, fun a b hab => Option.some.inj ?_⟩
  rw [← hparse a, hab, hparse b]

/-! ## Peer records -/

theorem hasForm_record {d : Decl} (h : d.IsBoundary) {levels : Nat}
    (hmembers : ∀ m ∈ d.members, m.ty.HasForm Decl.IsBoundary levels) :
    d.ty.HasForm Decl.IsBoundary (levels + 1) := by
  refine .record h ?_ hmembers
  cases h <;> decide

theorem hasForm_capability (levels : Nat) :
    Capability.decl.ty.HasForm Decl.IsBoundary (levels + 2) := by
  refine hasForm_record .capability ?_
  simp only [List.forall_mem_cons]
  exact ⟨.u16, .string, nofun⟩

theorem hasForm_timestampedPeerInfo (levels : Nat) :
    TimestampedPeerInfo.decl.ty.HasForm Decl.IsBoundary (levels + 2) := by
  refine hasForm_record .timestampedPeerInfo ?_
  simp only [List.forall_mem_cons]
  exact ⟨.string, .u16, .u64, nofun⟩

theorem hasForm_of_isBoundary {d : Decl} (h : d.IsBoundary) (levels : Nat) :
    d.ty.HasForm Decl.IsBoundary (levels + 4) := by
  cases h with
  | message =>
    refine hasForm_record .message ?_
    simp only [List.forall_mem_cons]
    exact ⟨.u8, .option nofun .u16, .list .u8, nofun⟩
  | capability => exact hasForm_capability (levels + 2)
  | handshake =>
    refine hasForm_record .handshake ?_
    simp only [List.forall_mem_cons]
    exact ⟨.string, .string, .string, .u16, .u8, .list (hasForm_capability levels), nofun⟩
  | requestPeers => exact hasForm_record .requestPeers nofun
  | timestampedPeerInfo => exact hasForm_timestampedPeerInfo (levels + 2)
  | respondPeers =>
    refine hasForm_record .respondPeers ?_
    simp only [List.forall_mem_cons]
    exact ⟨.list (hasForm_timestampedPeerInfo levels), nofun⟩

/-- Messages and all that they carry come back from JSON as they went, whatever the libraries that
derive their forms and that print and read JSON, as long as they keep to the laws: with any text in
them, any numbers, any bytes, an id or none, and lists of any length. -/
theorem roundTrips_peer_records {lib : JsonLibrary} (hw : lib.WritesForms Decl.IsBoundary)
    (hr : lib.ReadsForms Decl.IsBoundary) (hp : lib.PrintsCompact) (hs : lib.ReadsStandard) :
    lib.RoundTrips Message ∧ lib.RoundTrips Capability ∧ lib.RoundTrips Handshake ∧
      lib.RoundTrips RequestPeers ∧ lib.RoundTrips TimestampedPeerInfo ∧
      lib.RoundTrips RespondPeers := by
  have hround {α : Type} [Record α] (h : (Record.decl α).IsBoundary) : lib.RoundTrips α :=
    roundTrips_of_hasForm hw hr hp hs (hasForm_of_isBoundary h 123)
  exact ⟨hround .message, hround .capability, hround .handshake, hround .requestPeers,
    hround .timestampedPeerInfo, hround .respondPeers⟩

end JsonLibrary

/-! ## The plain library -/

namespace Json

theorem below?_nat {n bound : Nat} (h : n < bound) : (nat n).below? bound = some n := if_pos h

theorem renderItems_eq (js : List Json) : renderItems js = [','].intercalate (js.map render) := by
  induction js with
  | nil => rw [renderItems, List.map_nil, List.intercalate_nil]
  | cons j js ih =>
    cases js with
    | nil => rw [renderItems, List.map_singleton, List.intercalate_singleton]
    | cons k js =>
      rw [renderItems, ih, intercalate_map]
      exact List.cons_ne_nil k js

theorem renderMembers_eq (ms : List (List Quoted.Atom × Json)) :
    renderMembers ms =
      [','].intercalate (ms.map fun (key, j) => Quoted.render key ++ ':' :: j.render) := by
  induction ms with
  | nil => rw [renderMembers, List.map_nil, List.intercalate_nil]
  | cons m ms ih =>
    cases ms with
    | nil => rw [renderMembers, List.map_singleton, List.intercalate_singleton]
    | cons k ms =>
      rw [renderMembers, ih, intercalate_map, List.append_assoc, List.cons_append]
      exact List.cons_ne_nil k ms

theorem slots?_record (names : List String) (object : List (String × Json)) :
    (record object).slots? names = names.mapM (lookup · object) := by
  rw [record, slots?, List.mapM_map, mapM_eq_some_map, List.map_id, Option.bind_eq_bind,
    Option.bind_some]
  intro e _
  exact congrArg (Option.map (·, e.2)) (Quoted.text?_ofText e.1)

end Json

namespace JsonLibrary

theorem plain_entries {members : List (Member Ty)} (row : Row members) :
    plain.entries members row = Row.entries members row := by
  induction members with
  | nil => rfl
  | cons m ms ih =>
    obtain ⟨v, row⟩ := row
    exact congrArg (_ :: ·) (ih row)

theorem plain_writesForms (derived : Decl → Prop) : plain.WritesForms derived where
  u8 _ := rfl
  u16 _ := rfl
  u64 _ := rfl
  string _ := rfl
  list _ _ := rfl
  absent _ := rfl
  present _ _ := rfl
  record _ row := congrArg Json.record (plain_entries row).symm

theorem plain_slots {object : List (String × Json)} {members : List (Member Ty)}
    {row : Row members} (h : plain.Holds object members row) :
    ∃ slots, (members.map Member.key).mapM (Json.lookup · object) = some slots ∧
      Row.ofSlots? members slots = some row := by
  induction members with
  | nil => exact ⟨[], rfl, rfl⟩
  | cons m ms ih =>
    obtain ⟨v, row⟩ := row
    obtain ⟨⟨j, hj, hv⟩, hrow⟩ := h
    obtain ⟨slots, hslots, hrest⟩ := ih hrow
    have hlookup : Json.lookup m.key object = some (some j) := by
      unfold Json.Once at hj
      rw [Json.lookup, hj]
    refine ⟨some j :: slots, ?_, ?_⟩
    · rw [List.map_cons, List.mapM_cons, hlookup, hslots]
      rfl
    · show (plain.ofJson? m.ty j).bind (fun v => (Row.ofSlots? ms slots).bind _) = _
      rw [hv, hrest]
      rfl

theorem plain_readsForms (derived : Decl → Prop) : plain.ReadsForms derived where
  u8 h := congrArg (UInt8.ofNat <$> ·) (Json.below?_nat h)
  u16 h := congrArg (UInt16.ofNat <$> ·) (Json.below?_nat h)
  u64 h := congrArg (UInt64.ofNat <$> ·) (Json.below?_nat h)
  string s := Quoted.text?_ofText s
  list _ _ _ h := h
  absent _ := rfl
  present _ j h := by
    cases j with
    | null => exact absurd rfl h
    | _ => rfl
  record {d} _ object row hrow := by
    obtain ⟨slots, hslots, hslot⟩ := plain_slots hrow
    show ((Json.record object).slots? (d.members.map Member.key)).bind (Row.ofSlots? d.members) = _
    rw [Json.slots?_record, hslots, Option.bind_some, hslot]

theorem plain_printsCompact : plain.PrintsCompact where
  null := rfl
  nat _ := rfl
  text s := by
    show '"' :: ((Quoted.ofText s).flatMap Quoted.Atom.render ++ ['"']) = _
    rw [Quoted.ofText, List.flatMap_map]
    rfl
  array items := congrArg ('[' :: · ++ [']']) (Json.renderItems_eq items)
  record members := by
    show '\x7b' :: (Json.renderMembers _ ++ ['\x7d']) = _
    rw [Json.renderMembers_eq, List.map_map]
    rfl

theorem plain_readsStandard : plain.ReadsStandard where
  read h := h.parse_eq

/-- A host with a quote, a backslash and control characters in its name, and the last second that
there is. -/
theorem roundTrips_plain_peers :
    let peers : RespondPeers := ⟨[⟨"a\"\\\n\x01", 8444, 18446744073709551615⟩]⟩
    String.ofList (plain.write peers) =
        "\x7b\"peer_list\":[\x7b\"host\":\"a\\\"\\\\\\n\\u0001\",\"port\":8444," ++
          "\"timestamp\":18446744073709551615\x7d]\x7d" ∧
      plain.parse? (plain.write peers) = some peers := by
  intro peers
  obtain ⟨-, -, -, -, -, hround⟩ := roundTrips_peer_records (plain_writesForms _)
    (plain_readsForms _) plain_printsCompact plain_readsStandard
  exact ⟨by decide +kernel, hround.parse?_write peers⟩

end JsonLibrary

end PeerWire
