import Mathlib.Data.List.Basic
import PeerWire.Json.Grammar

/-!
# Texts of JSON

The parser reads whatever the grammar spells, and as what it spells. A reader passes over every
blank and a spelling over any number of them, so the two are compared behind the blanks. Only a
numeral has no end of its own: what comes behind it must not go on with it (`Numeral.Ends`), and
nothing that may come behind a value does. Main statement: `Json.Standard.parse_eq`.
-/

namespace PeerWire

/-! ## Blanks -/

namespace Scan

theorem skipBlanks_cons {c : Char} (h : isBlank c = false) (s : List Char) :
    skipBlanks (c :: s) = c :: s :=
  List.dropWhile_cons_of_neg (by rw [h]; decide)

theorem isBlank_of_isDigit {c : Char} (h : c.isDigit = true) : isBlank c = false := by
  rw [← Bool.not_eq_true]
  intro hblank
  simp only [isBlank, Bool.or_eq_true, decide_eq_true_eq] at hblank
  rcases hblank with ((rfl | rfl) | rfl) | rfl <;> exact absurd h (by decide)

end Scan

namespace Json.Blanks

variable {s rest : List Char}

theorem skipBlanks_eq (h : Blanks s rest) : Scan.skipBlanks s = Scan.skipBlanks rest := by
  induction h with
  | none => rfl
  | more hc _ ih => exact (List.dropWhile_cons_of_pos hc).trans ih

theorem length_le (h : Blanks s rest) : rest.length ≤ s.length := by
  induction h with
  | none => exact Nat.le_refl _
  | more _ _ ih => exact Nat.le_succ_of_le ih

theorem length_lt {c : Char} (h : Blanks s (c :: rest)) : rest.length < s.length :=
  Nat.lt_of_lt_of_le (Nat.lt_succ_self _) h.length_le

end Json.Blanks

/-! ## Numerals -/

namespace Numeral

/-- No character that goes on with a numeral comes first. -/
def Ends (rest : List Char) : Prop :=
  ∀ c ∈ rest.head?, c.isDigit = false ∧ c ≠ '.' ∧ c ≠ 'e' ∧ c ≠ 'E'

theorem ends_nil : Ends [] := nofun

theorem ends_cons {c : Char} (h : c = ',' ∨ c = ']' ∨ c = '}') (rest : List Char) :
    Ends (c :: rest) := by
  intro d hd
  obtain rfl : c = d := Option.some.inj hd
  rcases h with rfl | rfl | rfl <;> decide

theorem ends_of_blanks {s rest : List Char} (h : Json.Blanks s rest) (hrest : Ends rest) :
    Ends s := by
  cases h with
  | none => exact hrest
  | @more c _ _ hblank _ =>
    intro d hd
    obtain rfl : c = d := Option.some.inj hd
    simp only [Scan.isBlank, Bool.or_eq_true, decide_eq_true_eq] at hblank
    rcases hblank with ((rfl | rfl) | rfl) | rfl <;> decide

theorem toDigits_eq_cons (n : Nat) :
    ∃ d ds, Nat.toDigits 10 n = d :: ds ∧ d.isDigit = true := by
  obtain ⟨d, ds, hds⟩ := List.exists_cons_of_ne_nil (Nat.toDigits_ne_nil (n := n) (b := 10))
  have hd : d ∈ Nat.toDigits 10 n := hds ▸ List.mem_cons_self
  exact ⟨d, ds, hds, Nat.isDigit_of_mem_toDigits (by decide) (by decide) hd⟩

theorem digits_append {ds rest : List Char} (hne : ds ≠ []) (hds : ∀ d ∈ ds, d.isDigit = true)
    (hrest : Ends rest) : digits (ds ++ rest) = some (ds, rest) := by
  obtain ⟨d, ds, rfl⟩ := List.exists_cons_of_ne_nil hne
  obtain ⟨hd, hds⟩ := List.forall_mem_cons.1 hds
  have hstop : rest.takeWhile Char.isDigit = [] ∧ rest.dropWhile Char.isDigit = rest := by
    cases rest with
    | nil => exact ⟨rfl, rfl⟩
    | cons c rest =>
      have hc := (hrest c rfl).1
      exact ⟨List.takeWhile_cons_of_neg (by simp [hc]), List.dropWhile_cons_of_neg (by simp [hc])⟩
  rw [List.cons_append, digits, if_pos hd, List.takeWhile_append_of_pos hds,
    List.dropWhile_append_of_pos hds, hstop.1, hstop.2, List.append_nil]

/-- A natural is rendered with no zero in front of other digits. -/
theorem eq_nil_of_toDigits_eq {n : Nat} {ds : List Char} (h : Nat.toDigits 10 n = '0' :: ds) :
    ds = [] := by
  induction n using Nat.strongRecOn generalizing ds with
  | _ n ih =>
    rcases Nat.lt_or_ge n 10 with hlt | hge
    · rw [Nat.toDigits_of_lt_base hlt] at h
      exact (List.cons.inj h).2.symm
    · rw [Nat.toDigits_of_base_le (by decide) hge] at h
      obtain ⟨d, ds', hds', -⟩ := toDigits_eq_cons (n / 10)
      rw [hds'] at h
      obtain rfl : d = '0' := (List.cons.inj h).1
      obtain rfl := ih (n / 10) (by omega) hds'
      have hzero : 0 = n / 10 := by
        calc 0 = Nat.ofDigitChars 10 ['0'] 0 := rfl
          _ = n / 10 := by rw [← hds', Nat.ofDigitChars_ten_toDigits]
      omega

theorem whole_toDigits (n : Nat) {rest : List Char} (hrest : Ends rest) :
    whole (Nat.toDigits 10 n ++ rest) = some (Nat.toDigits 10 n, rest) := by
  have hdigits := digits_append (Nat.toDigits_ne_nil (n := n) (b := 10))
    (fun d => Nat.isDigit_of_mem_toDigits (by decide) (by decide)) hrest
  unfold whole
  split
  · rename_i s hs
    obtain ⟨d, ds, hds, -⟩ := toDigits_eq_cons n
    rw [hds] at hs ⊢
    obtain ⟨rfl, rfl⟩ := List.cons.inj hs
    rw [eq_nil_of_toDigits_eq hds]
    rfl
  · exact hdigits

theorem fraction_of_ends {rest : List Char} (hrest : Ends rest) :
    fraction rest = some ([], rest) := by
  unfold fraction
  split
  · exact absurd rfl (hrest _ rfl).2.1
  · rfl

theorem exponent_of_ends {rest : List Char} (hrest : Ends rest) :
    exponent rest = some ([], rest) := by
  unfold exponent
  split
  · rfl
  · rename_i c s
    obtain ⟨-, -, he, hE⟩ := hrest c rfl
    rw [if_neg (not_or.2 ⟨he, hE⟩)]

theorem scan_toDigits (n : Nat) {rest : List Char} (hrest : Ends rest) :
    scan (Nat.toDigits 10 n ++ rest) = some (natural n, rest) := by
  have hunsigned :
      unsigned (Nat.toDigits 10 n ++ rest) = some ((Nat.toDigits 10 n, []), rest) := by
    simp [unsigned, whole_toDigits n hrest, fraction_of_ends hrest, exponent_of_ends hrest]
  obtain ⟨d, ds, hds, hd⟩ := toDigits_eq_cons n
  unfold scan
  split
  · rename_i s hs
    rw [hds] at hs
    obtain ⟨rfl, -⟩ := List.cons.inj hs
    exact absurd hd (by decide)
  · simp [hunsigned, Nat.ofDigitChars_ten_toDigits]

end Numeral

/-! ## Quoted text -/

namespace Quoted

theorem hexDigit?_digitChar {d : Nat} (h : d < 16) : hexDigit? (Nat.digitChar d) = some d := by
  revert d
  decide

/-- What a character is escaped to: a letter behind a backslash, the digits of a control character,
or nothing but itself. -/
theorem escapeChar_cases (c : Char) :
    (∃ e, escapeChar c = ['\\', e] ∧ unescape? e = some c) ∨
    (escapeChar c = '\\' :: 'u' :: hex c.toNat ∧ c.toNat < 0x20) ∨
    (escapeChar c = [c] ∧ c ≠ '"' ∧ c ≠ '\\' ∧ 0x20 ≤ c.toNat) := by
  unfold escapeChar
  iterate 7
    split
    · exact .inl ⟨_, rfl, by subst c; rfl⟩
  split
  · exact .inr (.inl ⟨rfl, ‹_›⟩)
  · exact .inr (.inr ⟨rfl, ‹_›, ‹_›, Nat.not_lt.1 ‹_›⟩)

theorem unit?_hex {n : Nat} (h : n < 0x10000) :
    unit? (Nat.digitChar (n / 4096 % 16)) (Nat.digitChar (n / 256 % 16))
      (Nat.digitChar (n / 16 % 16)) (Nat.digitChar (n % 16)) = some n := by
  have hdigit (n : Nat) : hexDigit? (Nat.digitChar (n % 16)) = some (n % 16) :=
    hexDigit?_digitChar (Nat.mod_lt n (by decide))
  simp only [unit?, hdigit, Option.bind_eq_bind, Option.bind_some, Option.some.injEq]
  omega

theorem body_unit {a b c d : Char} {unit : Nat} (h : unit? a b c d = some unit)
    {s rest : List Char} {atoms : List Atom} (hs : body s = some (atoms, rest)) :
    body ('\\' :: 'u' :: a :: b :: c :: d :: s) = some (Atom.ofUnit unit :: atoms, rest) := by
  rw [body]
  simp only [h, hs, Option.bind_eq_bind, Option.bind_some]

theorem body_escape {e c : Char} (h : unescape? e = some c) {s rest : List Char}
    {atoms : List Atom} (hs : body s = some (atoms, rest)) :
    body ('\\' :: e :: s) = some (.char c :: atoms, rest) := by
  rw [body]
  · simp only [h, hs, Option.bind_eq_bind, Option.bind_some]
  · rintro a b c d rest rfl rfl
    cases h

theorem body_plain {c : Char} (hquote : c ≠ '"') (hslash : c ≠ '\\') (hge : 0x20 ≤ c.toNat)
    {s rest : List Char} {atoms : List Atom} (hs : body s = some (atoms, rest)) :
    body (c :: s) = some (.char c :: atoms, rest) := by
  rw [body, if_neg (not_or.2 ⟨hslash, Nat.not_lt.2 hge⟩)]
  · simp only [hs, Option.bind_eq_bind, Option.bind_some]
  · exact hquote
  · exact fun _ _ _ _ _ h _ => hslash h
  · exact fun _ _ h _ => hslash h

theorem join_char (c : Char) (atoms : List Atom) :
    join (.char c :: atoms) = .char c :: join atoms := by
  rw [join]
  exact fun _ _ _ h _ => Atom.noConfusion h

end Quoted

namespace Json.Quotation

variable {s cs rest : List Char}

/-- The halves of a pair are read one after the other and joined when all is read. -/
theorem body_eq (h : Quotation s cs rest) :
    ∃ atoms, Quoted.body s = some (atoms, rest) ∧ Quoted.join atoms = cs.map .char := by
  induction h with
  | close => exact ⟨[], rfl, rfl⟩
  | @plain c _ _ _ hquote hslash hge _ ih =>
    obtain ⟨atoms, hbody, hjoin⟩ := ih
    exact ⟨_, Quoted.body_plain hquote hslash hge hbody, by rw [Quoted.join_char, hjoin]; rfl⟩
  | @escape _ c _ _ _ hc _ ih =>
    obtain ⟨atoms, hbody, hjoin⟩ := ih
    exact ⟨_, Quoted.body_escape hc hbody, by rw [Quoted.join_char, hjoin]; rfl⟩
  | unit hunit hwhole _ ih =>
    obtain ⟨atoms, hbody, hjoin⟩ := ih
    refine ⟨_, Quoted.body_unit hunit hbody, ?_⟩
    rw [Quoted.Atom.ofUnit, if_neg (by omega), Quoted.join_char, hjoin]
    rfl
  | pair hhigh hge hlt hlow hge' hlt' _ ih =>
    obtain ⟨atoms, hbody, hjoin⟩ := ih
    refine ⟨_, Quoted.body_unit hhigh (Quoted.body_unit hlow hbody), ?_⟩
    rw [Quoted.Atom.ofUnit, if_pos (by omega), Quoted.Atom.ofUnit, if_pos (by omega), Quoted.join,
      if_pos ⟨hlt, hge'⟩, hjoin]
    rfl

theorem scan_eq (h : Quotation s cs rest) : Quoted.scan s = some (cs.map .char, rest) := by
  obtain ⟨atoms, hbody, hjoin⟩ := h.body_eq
  rw [Quoted.scan, hbody, ← hjoin]
  rfl

theorem length_le (h : Quotation s cs rest) : rest.length ≤ s.length := by
  induction h <;> simp only [List.length_cons] <;> omega

end Json.Quotation

/-! ## Items -/

namespace Scan

variable {α : Type} {item : Scan α} {close : Char} {count : Nat} {s s' rest : List Char} {a : α}
  {as : List α}

theorem items_last (hclose : close = ']' ∨ close = '}') (ha : item s = some (a, s'))
    (hback : skipBlanks s' = close :: rest) :
    items item close (count + 1) s = some ([a], rest) := by
  rw [items, ha]
  simp only [Option.bind_eq_bind, Option.bind_some, hback]
  rcases hclose with rfl | rfl <;> rfl

theorem items_more {others : List Char} (ha : item s = some (a, s'))
    (hback : skipBlanks s' = ',' :: others)
    (has : items item close count others = some (as, rest)) :
    items item close (count + 1) s = some (a :: as, rest) := by
  rw [items, ha]
  simp only [Option.bind_eq_bind, Option.bind_some, hback, has]

theorem list_empty (h : skipBlanks s = close :: rest) :
    list item close count s = some ([], rest) := by
  simp only [list, h, if_true]

theorem list_items {c : Char} {t : List Char} (h : skipBlanks s = c :: t) (hc : c ≠ close)
    (has : items item close count s = some (as, rest)) :
    list item close count s = some (as, rest) := by
  simp only [list, h, if_neg hc, has]

end Scan

namespace Json

/-- What an item looks like from outside: it does not grow, and begins neither with a blank nor with
a closing mark. -/
structure IsItem {α : Type} (item : List Char → α → List Char → Prop) : Prop where
  length_le {s : List Char} {a : α} {rest : List Char} (h : item s a rest) : rest.length ≤ s.length
  head {s : List Char} {a : α} {rest : List Char} (h : item s a rest) :
    ∃ c t, s = c :: t ∧ Scan.isBlank c = false ∧ c ≠ ']' ∧ c ≠ '}'

/-- A scan passes over blanks, and takes what is spelled from any text up to a length, if what comes
behind ends it. -/
structure Takes {α : Type} (scan : Scan α) (item : List Char → α → List Char → Prop)
    (bound : Nat) : Prop where
  skip {s s' : List Char} (h : Blanks s s') : scan s = scan s'
  take {s : List Char} {a : α} {rest : List Char} (h : item s a rest) (hbound : s.length ≤ bound)
    (hrest : Numeral.Ends rest) : scan s = some (a, rest)

section

variable {α : Type} {item : List Char → α → List Char → Prop} {close : Char} {as : List α}
  {s rest : List Char}

theorem IsItem.length_lt (hitem : IsItem item) {s₁ s₂ : List Char} {a : α} {c : Char}
    (hfront : Blanks s s₁) (ha : item s₁ a s₂) (hback : Blanks s₂ (c :: rest)) :
    rest.length < s.length := by
  have hfront' := hfront.length_le
  have ha' := hitem.length_le ha
  have hback' := hback.length_lt
  omega

theorem Items.length_le (hitem : IsItem item) (h : Items item close s as rest) :
    rest.length ≤ s.length := by
  induction h with
  | last hfront ha hback => exact Nat.le_of_lt (hitem.length_lt hfront ha hback)
  | more hfront ha hback _ ih =>
    exact Nat.le_trans ih (Nat.le_of_lt (hitem.length_lt hfront ha hback))

theorem Listed.length_le (hitem : IsItem item) (h : Listed item close s as rest) :
    rest.length ≤ s.length := by
  cases h with
  | empty hblanks => exact Nat.le_of_lt hblanks.length_lt
  | items h => exact h.length_le hitem

theorem Items.head (hitem : IsItem item) (h : Items item close s as rest) :
    ∃ c t, Scan.skipBlanks s = c :: t ∧ c ≠ ']' ∧ c ≠ '}' := by
  obtain ⟨s', a, s'', hfront, ha⟩ : ∃ s' a s'', Blanks s s' ∧ item s' a s'' := by
    cases h with
    | last hfront ha _ => exact ⟨_, _, _, hfront, ha⟩
    | more hfront ha _ _ => exact ⟨_, _, _, hfront, ha⟩
  obtain ⟨c, t, rfl, hblank, hc⟩ := hitem.head ha
  exact ⟨c, t, hfront.skipBlanks_eq.trans (Scan.skipBlanks_cons hblank t), hc⟩

variable {scan : Scan α} {bound : Nat}

/-- An item between blanks is scanned up to the mark that it stands in front of. -/
theorem Takes.take_item (hscan : Takes scan item bound) {s₁ s₂ : List Char} {a : α} {c : Char}
    (hc : c = ',' ∨ c = ']' ∨ c = '}') (hfront : Blanks s s₁) (ha : item s₁ a s₂)
    (hback : Blanks s₂ (c :: rest)) (hbound : s.length ≤ bound) :
    scan s = some (a, s₂) ∧ Scan.skipBlanks s₂ = c :: rest := by
  have hends := Numeral.ends_of_blanks hback (Numeral.ends_cons hc rest)
  have htake := hscan.take ha (Nat.le_trans hfront.length_le hbound) hends
  refine ⟨(hscan.skip hfront).trans htake, hback.skipBlanks_eq.trans ?_⟩
  rcases hc with rfl | rfl | rfl <;> exact Scan.skipBlanks_cons rfl rest

theorem Items.items_eq (hitem : IsItem item) (hscan : Takes scan item bound)
    (hclose : close = ']' ∨ close = '}') (h : Items item close s as rest)
    (hbound : s.length ≤ bound) {count : Nat} (hcount : s.length ≤ count) :
    Scan.items scan close count s = some (as, rest) := by
  induction h generalizing count with
  | last hfront ha hback =>
    have hlt := hitem.length_lt hfront ha hback
    obtain ⟨count, rfl⟩ : ∃ n, count = n + 1 := ⟨count - 1, by omega⟩
    obtain ⟨htake, hskip⟩ := hscan.take_item (.inr hclose) hfront ha hback hbound
    exact Scan.items_last hclose htake hskip
  | more hfront ha hback _ ih =>
    have hlt := hitem.length_lt hfront ha hback
    obtain ⟨count, rfl⟩ : ∃ n, count = n + 1 := ⟨count - 1, by omega⟩
    obtain ⟨htake, hskip⟩ := hscan.take_item (.inl rfl) hfront ha hback hbound
    exact Scan.items_more htake hskip (ih (by omega) (by omega))

theorem Listed.list_eq (hitem : IsItem item) (hscan : Takes scan item bound)
    (hclose : close = ']' ∨ close = '}') (h : Listed item close s as rest)
    (hbound : s.length ≤ bound) {count : Nat} (hcount : s.length ≤ count) :
    Scan.list scan close count s = some (as, rest) := by
  cases h with
  | empty hblanks =>
    refine Scan.list_empty (hblanks.skipBlanks_eq.trans ?_)
    rcases hclose with rfl | rfl <;> exact Scan.skipBlanks_cons rfl rest
  | items h =>
    obtain ⟨c, t, hskip, hbracket, hbrace⟩ := h.head hitem
    refine Scan.list_items hskip ?_ (h.items_eq hitem hscan hclose hbound hcount)
    rcases hclose with rfl | rfl
    · exact hbracket
    · exact hbrace

end

/-! ## Values -/

section

variable {part : List Char → Json → List Char → Prop}

theorem isItem_entry (hpart : IsItem part) : IsItem (Entry part) where
  length_le h := by
    obtain ⟨hkey, hcolon, hfront, hj⟩ := h
    have hkey' := hkey.length_le
    have hcolon' := hcolon.length_lt
    have hfront' := hfront.length_le
    have hj' := hpart.length_le hj
    rw [List.length_cons]
    omega
  head h := by
    obtain ⟨-, -, -, -⟩ := h
    exact ⟨_, _, rfl, by decide⟩

theorem isItem_level (hpart : IsItem part) : IsItem (Level part) where
  length_le h := by
    cases h with
    | null | true | false => simp only [List.length_cons]; omega
    | number _ => simp only [List.length_append]; omega
    | string h => exact Nat.le_succ_of_le h.length_le
    | array h => exact Nat.le_succ_of_le (h.length_le hpart)
    | object h => exact Nat.le_succ_of_le (h.length_le (isItem_entry hpart))
  head h := by
    cases h with
    | @number n _ _ =>
      obtain ⟨d, ds, hds, hd⟩ := Numeral.toDigits_eq_cons n
      refine ⟨d, ds ++ _, by rw [hds, List.cons_append], Scan.isBlank_of_isDigit hd, ?_⟩
      constructor <;> rintro rfl <;> exact absurd hd (by decide)
    | _ => exact ⟨_, _, rfl, by decide⟩

theorem isItem_spells (levels : Nat) : IsItem (Spells levels) := by
  induction levels with
  | zero => exact ⟨False.elim, False.elim⟩
  | succ levels ih => exact isItem_level ih

end

theorem value_skip (bound : Nat) {s s' : List Char} (h : Blanks s s') :
    value bound s = value bound s' := by
  cases bound with
  | zero => rfl
  | succ bound => rw [value, value, h.skipBlanks_eq]

theorem takes_member {scan : Scan Json} {part : List Char → Json → List Char → Prop} {bound : Nat}
    (hscan : Takes scan part bound) : Takes (member scan) (Entry part) bound where
  skip h := by rw [member, member, h.skipBlanks_eq]
  take h hbound hrest := by
    obtain ⟨hkey, hcolon, hfront, hj⟩ := h
    have hkey' := hkey.length_le
    have hcolon' := hcolon.length_lt
    have hfront' := hfront.length_le
    rw [List.length_cons] at hbound
    have hvalue := (hscan.skip hfront).trans (hscan.take hj (by omega) hrest)
    rw [member, Scan.skipBlanks_cons rfl]
    simp only [hkey.scan_eq, Option.bind_eq_bind, Option.bind_some]
    rw [hcolon.skipBlanks_eq, Scan.skipBlanks_cons rfl]
    simp only [hvalue, Option.bind_some]

theorem value_nat (bound n : Nat) {rest : List Char} (hrest : Numeral.Ends rest) :
    value (bound + 1) (Nat.toDigits 10 n ++ rest) = some (nat n, rest) := by
  have hscan := Numeral.scan_toDigits n hrest
  obtain ⟨d, ds, hds, hd⟩ := Numeral.toDigits_eq_cons n
  rw [hds, List.cons_append] at hscan ⊢
  rw [value, Scan.skipBlanks_cons (Scan.isBlank_of_isDigit hd)]
  -- A digit is none of the characters with which the other values begin.
  split
  case h_7 => simp only [hscan, Option.bind_eq_bind, Option.bind_some, nat]
  all_goals
    rename_i heq
    obtain ⟨rfl, -⟩ := List.cons.inj heq
    exact absurd hd (by decide)

/-- A bound as large as the text is large enough for every array and object in it. -/
theorem Spells.value_eq {levels : Nat} {s rest : List Char} {j : Json} (h : Spells levels s j rest)
    {bound : Nat} (hbound : s.length ≤ bound) (hrest : Numeral.Ends rest) :
    value (bound + 1) s = some (j, rest) := by
  induction levels generalizing s j rest bound with
  | zero => cases h
  | succ levels ih =>
    have hitem := isItem_spells levels
    have hparts (bound : Nat) : Takes (value (bound + 1)) (Spells levels) bound :=
      ⟨value_skip (bound + 1), fun h hbound hrest => ih h hbound hrest⟩
    cases h with
    | null | true | false => rfl
    | number _ => exact value_nat bound _ hrest
    | string h =>
      rw [value, Scan.skipBlanks_cons rfl]
      simp only [h.scan_eq, Option.bind_eq_bind, Option.bind_some, text, Quoted.ofText,
        String.toList_ofList]
    | array h =>
      obtain ⟨bound, rfl⟩ := Nat.exists_eq_add_one_of_ne_zero (Nat.ne_zero_of_lt hbound)
      have hlength := Nat.le_of_succ_le_succ hbound
      have hlist := h.list_eq hitem (hparts bound) (.inl rfl) hlength (Nat.le_succ_of_le hlength)
      rw [value, Scan.skipBlanks_cons rfl]
      simp only [hlist, Option.bind_eq_bind, Option.bind_some]
    | object h =>
      obtain ⟨bound, rfl⟩ := Nat.exists_eq_add_one_of_ne_zero (Nat.ne_zero_of_lt hbound)
      have hlength := Nat.le_of_succ_le_succ hbound
      have hlist := h.list_eq (isItem_entry hitem) (takes_member (hparts bound)) (.inr rfl) hlength
        (Nat.le_succ_of_le hlength)
      rw [value, Scan.skipBlanks_cons rfl]
      simp only [hlist, Option.bind_eq_bind, Option.bind_some]

/-- Standard JSON is read as what it says, at any depth. -/
theorem Standard.parse_eq {levels : Nat} {s : List Char} {j : Json} (h : Standard levels s j) :
    parse s = some j := by
  obtain ⟨s', rest, hfront, hj, hback⟩ := h
  have hends := Numeral.ends_of_blanks hback Numeral.ends_nil
  have hvalue := (value_skip _ hfront).trans (hj.value_eq hfront.length_le hends)
  rw [parse, Scan.whole, hvalue, Option.bind_eq_bind, Option.bind_some]
  exact if_pos (congrArg List.isEmpty hback.skipBlanks_eq)

/-! ## Compact text -/

theorem Quotation.escapeChar (c : Char) {s cs rest : List Char} (h : Quotation s cs rest) :
    Quotation (Quoted.escapeChar c ++ s) (c :: cs) rest := by
  rcases Quoted.escapeChar_cases c with ⟨e, he, hc⟩ | ⟨he, hlt⟩ | ⟨he, hquote, hslash, hge⟩
  · rw [he]
    exact .escape hc h
  · rw [he]
    have hunit := Quoted.unit?_hex (Nat.lt_trans hlt (by decide))
    have hspelled := Quotation.unit hunit (.inl (Nat.lt_trans hlt (by decide))) h
    rw [Char.ofNat_toNat] at hspelled
    exact hspelled
  · rw [he]
    exact .plain hquote hslash hge h

theorem quotation_escaped (cs rest : List Char) :
    Quotation (cs.flatMap Quoted.escapeChar ++ '"' :: rest) cs rest := by
  induction cs with
  | nil => exact .close
  | cons c cs ih =>
    rw [List.flatMap_cons, List.append_assoc]
    exact ih.escapeChar c

theorem intercalate_map {β : Type} (print : β → List Char) (b b' : β) (bs : List β) :
    [','].intercalate ((b :: b' :: bs).map print) =
      print b ++ ',' :: [','].intercalate ((b' :: bs).map print) := by
  rw [List.map_cons, List.map_cons, List.intercalate_cons_cons, List.append_assoc,
    List.singleton_append]

/-- Items one behind the other with nothing but commas between them. -/
theorem listed_intercalate {α β : Type} {item : List Char → α → List Char → Prop} {close : Char}
    {print : β → List Char} {read : β → α} {bs : List β}
    (h : ∀ b ∈ bs, ∀ rest, item (print b ++ rest) (read b) rest) (rest : List Char) :
    Listed item close ([','].intercalate (bs.map print) ++ close :: rest) (bs.map read) rest := by
  cases bs with
  | nil => exact .empty .none
  | cons b bs =>
    refine .items ?_
    induction bs generalizing b with
    | nil =>
      rw [List.map_singleton, List.map_singleton, List.intercalate_singleton]
      exact .last .none (h b List.mem_cons_self _) .none
    | cons b' bs ih =>
      rw [intercalate_map, List.append_assoc, List.map_cons]
      exact .more .none (h b List.mem_cons_self _) .none
        (ih b' fun c hc => h c (List.mem_cons_of_mem b hc))

end Json

end PeerWire
