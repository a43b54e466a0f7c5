import Mathlib.Data.List.TakeDrop
import Minifier.Json.Reader
import Minifier.Json.Writer
import Minifier.Proofs.Entries

/-!
# Documents are read back

What a value is written as is read as that value, in the compact and in the indented form.

* The two forms differ in the blanks between their parts only. A `Layout` says which blanks these are, and
  `compactText` and `prettyText` are one writer in two layouts (`compactText_eq`, `prettyText_eq`).
* Strings, numerals and values are each read up to the end of what was written, whatever follows
  (`string?_quoted`, `numeral?_intText`, `exists_value?`). For a numeral, what follows must not go on with it
  (`endsNumeral`).
* Not every value is one that a document holds: names are distinct, nesting is limited, and the
  numbers here are integers of 64 bits (`Json.IsDocument`).

**Main result**: `readWithin?_document`.
-/

namespace Minifier

open Draft

/-! ## Blanks -/

theorem skipBlanks_append {blanks : List Char} (h : ∀ c ∈ blanks, isBlank c = true) (cs : List Char) :
    skipBlanks (blanks ++ cs) = skipBlanks cs :=
  List.dropWhile_append_of_pos h

theorem skipBlanks_cons {c : Char} (h : isBlank c = false) (cs : List Char) :
    skipBlanks (c :: cs) = c :: cs :=
  List.dropWhile_cons_of_neg (by simp [h])

/-! ## Strings -/

theorem quoted_append (s : String) (cs : List Char) :
    Json.quoted s ++ cs = '"' :: (s.toList.flatMap Json.escapeChar ++ '"' :: cs) := by
  rw [Json.quoted, List.cons_append, List.cons_append, List.append_assoc, List.singleton_append]

theorem skipBlanks_quoted (s : String) (cs : List Char) :
    skipBlanks (Json.quoted s ++ cs) = Json.quoted s ++ cs :=
  skipBlanks_cons (by decide) _

theorem unit?_hexDigit {k : Nat} (h : k < 32) :
    unit? '0' '0' (Json.hexDigit (k / 16)) (Json.hexDigit (k % 16)) = some k := by
  have hall : ∀ k < 32, unit? '0' '0' (Json.hexDigit (k / 16)) (Json.hexDigit (k % 16)) = some k := by
    decide
  exact hall k h

/-- A unit that names a control character is no half of a surrogate pair. -/
theorem chars?_unit {u : Nat} (hu : u < 32) (ps : List Piece) :
    chars? (.unit u :: ps) = (chars? ps).map (Char.ofNat u :: ·) := by
  have hhigh : isHigh u = false := by simp [isHigh]; omega
  have hlow : isLow u = false := by simp [isLow]; omega
  rcases ps with _ | ⟨p | v, ps⟩ <;> simp [chars?, hhigh, hlow]

theorem pieces?_cons {c : Char} (hquote : c ≠ '"') (hslash : c ≠ '\\') (hprint : 32 ≤ c.toNat)
    {rest after : List Char} {ps : List Piece} (h : pieces? rest = some (ps, after)) :
    pieces? (c :: rest) = some (.char c :: ps, after) := by
  have hcontrol : ¬ c.toNat < 32 := by omega
  rw [pieces?]
  · simp [hcontrol, hslash, h]
  all_goals simp_all

theorem pieces?_escape {e c : Char} (he : e ≠ 'u') (hescaped : escaped? e = some c)
    {rest after : List Char} {ps : List Piece} (h : pieces? rest = some (ps, after)) :
    pieces? ('\\' :: e :: rest) = some (.char c :: ps, after) := by
  rw [pieces?]
  · simp [hescaped, h]
  · intro a b c d rest heq
    exact absurd heq he

/-- One character that was escaped is read as one piece that stands for it. -/
theorem pieces?_escapeChar (c : Char) {rest after : List Char} {ps : List Piece}
    (h : pieces? rest = some (ps, after)) :
    ∃ piece, pieces? (Json.escapeChar c ++ rest) = some (piece :: ps, after) ∧
      chars? (piece :: ps) = (chars? ps).map (c :: ·) := by
  rw [Json.escapeChar]
  by_cases hquote : c = '"'
  · subst hquote
    exact ⟨_, pieces?_escape (by decide) rfl h, rfl⟩
  by_cases hslash : c = '\\'
  · subst hslash
    exact ⟨_, pieces?_escape (by decide) rfl h, rfl⟩
  rw [if_neg (by simpa using hquote), if_neg (by simpa using hslash)]
  split
  next hprint => exact ⟨_, pieces?_cons hquote hslash hprint h, rfl⟩
  next hcontrol =>
    have hletter : ∀ {e k}, c.toNat = k → e ≠ 'u' → escaped? e = some (Char.ofNat k) →
        ∃ piece, pieces? (['\\', e] ++ rest) = some (piece :: ps, after) ∧
          chars? (piece :: ps) = (chars? ps).map (c :: ·) := by
      rintro e k rfl he hescaped
      rw [Char.ofNat_toNat] at hescaped
      exact ⟨_, pieces?_escape he hescaped h, rfl⟩
    split
    next heq => exact hletter heq (by decide) rfl
    split
    next heq => exact hletter heq (by decide) rfl
    split
    next heq => exact hletter heq (by decide) rfl
    split
    next heq => exact hletter heq (by decide) rfl
    split
    next heq => exact hletter heq (by decide) rfl
    -- The other control characters are named by their units.
    have hlt : c.toNat < 32 := by omega
    refine ⟨.unit c.toNat, ?_, ?_⟩
    · simp only [List.cons_append, List.nil_append]
      rw [pieces?, unit?_hexDigit hlt, h]
    · rw [chars?_unit hlt, Char.ofNat_toNat]

theorem exists_pieces? (cs rest : List Char) :
    ∃ ps, pieces? (cs.flatMap Json.escapeChar ++ '"' :: rest) = some (ps, rest) ∧ chars? ps = some cs := by
  induction cs with
  | nil => exact ⟨[], rfl, rfl⟩
  | cons c cs ih =>
      obtain ⟨ps, hps, hchars⟩ := ih
      obtain ⟨piece, hpiece, hcons⟩ := pieces?_escapeChar c hps
      refine ⟨piece :: ps, ?_, ?_⟩
      · rw [List.flatMap_cons, List.append_assoc, hpiece]
      · rw [hcons, hchars]
        rfl

/-- A quoted string is read as it was, once its opening quote is read. -/
theorem string?_quoted (s : String) (rest : List Char) :
    string? (s.toList.flatMap Json.escapeChar ++ '"' :: rest) = some (some s, rest) := by
  obtain ⟨ps, hps, hchars⟩ := exists_pieces? s.toList rest
  rw [string?, hps]
  simp [hchars]

/-! ## Numerals -/

/-- What follows does not go on with a numeral that stands before it. -/
def endsNumeral : List Char → Bool
  | [] => true
  | c :: _ => !(c.isDigit || c == '.' || c == 'e' || c == 'E')

theorem isDigit_of_mem_toDigits {k : Nat} : ∀ c ∈ Nat.toDigits 10 k, c.isDigit = true :=
  fun _ hc => Nat.isDigit_of_mem_toDigits (by decide) (by decide) hc

/-- Only the numeral of zero starts with a zero. -/
theorem toDigits_head {k : Nat} (h : 0 < k) :
    ∃ c cs, Nat.toDigits 10 k = c :: cs ∧ c ≠ '0' := by
  induction k using Nat.strongRecOn with
  | _ k ih =>
      by_cases hk : k < 10
      · rw [Nat.toDigits_of_lt_base hk]
        have hall : ∀ k < 10, 0 < k → k.digitChar ≠ '0' := by decide
        exact ⟨_, _, rfl, hall k hk h⟩
      · obtain ⟨c, cs, hcs, hc⟩ := ih (k / 10) (by omega) (by omega)
        rw [Nat.toDigits_of_base_le (by decide) (by omega), hcs]
        exact ⟨c, _, rfl, hc⟩

theorem digits?_append {ds rest : List Char} (hds : ∀ c ∈ ds, c.isDigit = true) (hne : ds ≠ [])
    (hrest : endsNumeral rest = true) : Numeral.digits? (ds ++ rest) = some (ds, rest) := by
  have htake : rest.takeWhile Char.isDigit = [] ∧ rest.dropWhile Char.isDigit = rest := by
    cases rest with
    | nil => exact ⟨rfl, rfl⟩
    | cons c rest =>
        have hc : c.isDigit = false := by simp_all [endsNumeral]
        simp [hc]
  rw [Numeral.digits?, List.span_eq_takeWhile_dropWhile, List.takeWhile_append_of_pos hds,
    List.dropWhile_append_of_pos hds, htake.1, htake.2, List.append_nil]
  cases ds with
  | nil => exact absurd rfl hne
  | cons d ds => rfl

theorem whole?_toDigits (k : Nat) {rest : List Char} (hrest : endsNumeral rest = true) :
    whole? (Nat.toDigits 10 k ++ rest) = some (Nat.toDigits 10 k, rest) := by
  rcases Nat.eq_zero_or_pos k with rfl | hpos
  · have hdigit : (rest.head?.map Char.isDigit).getD false = false := by
      cases rest <;> simp_all [endsNumeral]
    rw [Nat.toDigits_zero, List.singleton_append, whole?, hdigit]
    rfl
  · have hdigits := digits?_append (isDigit_of_mem_toDigits (k := k)) Nat.toDigits_ne_nil hrest
    obtain ⟨c, cs, hcs, hc⟩ := toDigits_head hpos
    rw [hcs, List.cons_append] at hdigits ⊢
    rw [whole?, hdigits]
    intro rest' heq
    exact hc (List.cons.inj heq).1

theorem fraction?_of_endsNumeral {rest : List Char} (h : endsNumeral rest = true) :
    fraction? rest = some ([], rest) := by
  rw [fraction?]
  rintro rest' rfl
  simp [endsNumeral] at h

theorem exponent?_of_endsNumeral {rest : List Char} (h : endsNumeral rest = true) :
    Numeral.exponent? rest = some (none, rest) := by
  cases rest with
  | nil => rfl
  | cons c rest => simp_all [endsNumeral, Numeral.exponent?]

/-- A numeral whose sign has been read. -/
def unsigned? (negative : Bool) (cs : List Char) : Option (Numeral × List Char) :=
  match whole? cs with
  | none => none
  | some (whole, cs) =>
    match fraction? cs with
    | none => none
    | some (fraction, cs) =>
      match Numeral.exponent? cs with
      | none => none
      | some (power, rest) => some (.ofDigits negative whole fraction power, rest)

theorem numeral?_minus (cs : List Char) : numeral? ('-' :: cs) = unsigned? true cs := rfl

theorem numeral?_cons {c : Char} (h : c.isDigit = true) (cs : List Char) :
    numeral? (c :: cs) = unsigned? false (c :: cs) := by
  rw [numeral?]
  · rfl
  · rintro rest heq
    rw [(List.cons.inj heq).1] at h
    exact absurd h (by decide)

theorem unsigned?_toDigits (negative : Bool) (k : Nat) {rest : List Char} (hrest : endsNumeral rest = true) :
    unsigned? negative (Nat.toDigits 10 k ++ rest) = some (⟨negative, k, 0, true⟩, rest) := by
  have hvalue : Numeral.natOfDigits (Nat.toDigits 10 k) = k :=
    Nat.ofDigitChars_toDigits (by decide) (by decide)
  simp [unsigned?, whole?_toDigits k hrest, fraction?_of_endsNumeral hrest,
    exponent?_of_endsNumeral hrest, Numeral.ofDigits, hvalue]

/-- The numeral of an integer is read as the sign and the magnitude of it. -/
theorem numeral?_intText (i : Int) {rest : List Char} (hrest : endsNumeral rest = true) :
    numeral? (Number.intText i ++ rest) = some (⟨decide (i < 0), i.natAbs, 0, true⟩, rest) := by
  rw [Number.intText]
  split
  next hneg =>
    rw [List.cons_append, numeral?_minus, unsigned?_toDigits true _ hrest, decide_eq_true hneg]
  next hneg =>
    obtain ⟨d, ds, hds⟩ := List.exists_cons_of_ne_nil (Nat.toDigits_ne_nil (n := i.natAbs) (b := 10))
    have hd : d.isDigit = true := isDigit_of_mem_toDigits d (hds ▸ List.mem_cons_self ..)
    have hread := unsigned?_toDigits false i.natAbs hrest
    rw [hds, List.cons_append] at hread ⊢
    rw [numeral?_cons hd, hread, decide_eq_false hneg]

/-- The numbers that numerals without point and exponent denote in 64 bits. The negative zero is the
one among them that is a double. -/
def Number.IsWhole : Number → Prop
  | .int i => -0x8000000000000000 ≤ i ∧ i < 0x10000000000000000
  | .float x => x = -0.0

theorem toNumber?_int {i : Int} (h : (Number.int i).IsWhole) :
    Numeral.toNumber? ⟨decide (i < 0), i.natAbs, 0, true⟩ = some (.int i) := by
  obtain ⟨hlow, hhigh⟩ := h
  have hint : Numeral.toInt? ⟨decide (i < 0), i.natAbs, 0, true⟩ = some i := by
    by_cases hneg : i < 0
    · have hmagnitude : ¬ (i.natAbs = 0 ∨ 0x8000000000000000 < i.natAbs) := by omega
      have hvalue : -(i.natAbs : Int) = i := by omega
      simp only [Numeral.toInt?, hneg, decide_true, if_true, if_neg hmagnitude, hvalue]
      rfl
    · have hmagnitude : i.natAbs < 0x10000000000000000 := by omega
      have hvalue : (i.natAbs : Int) = i := by omega
      simp only [Numeral.toInt?, hneg, decide_false, if_pos hmagnitude, hvalue]
      rfl
  rw [Numeral.toNumber?, hint]

theorem numeral?_negativeZero {rest : List Char} (hrest : endsNumeral rest = true) :
    numeral? ('-' :: '0' :: '.' :: '0' :: rest) = some (⟨true, 0, -1, false⟩, rest) := by
  have hdigits : Numeral.digits? (['0'] ++ rest) = some (['0'], rest) :=
    digits?_append (List.forall_mem_singleton.mpr rfl) (List.cons_ne_nil _ _) hrest
  have hexponent := exponent?_of_endsNumeral hrest
  rw [numeral?_minus, unsigned?]
  simp only [whole?, fraction?, List.singleton_append] at hdigits ⊢
  simp [hdigits, hexponent, Numeral.ofDigits, Numeral.natOfDigits, Numeral.digitValue]

/-- A number is read as it was. -/
theorem exists_numeral? {n : Number} (h : n.IsWhole) {rest : List Char} (hrest : endsNumeral rest = true) :
    ∃ numeral, numeral? (n.text ++ rest) = some (numeral, rest) ∧ numeral.toNumber? = some n := by
  cases n with
  | int i => exact ⟨_, numeral?_intText i hrest, toNumber?_int h⟩
  | float x =>
      cases h
      have htext : (Number.float (-0.0)).text = ['-', '0', '.', '0'] := by decide +kernel
      rw [htext]
      exact ⟨_, numeral?_negativeZero hrest, rfl⟩

/-- A number starts with a sign or a digit. -/
theorem numberText_head {n : Number} (h : n.IsWhole) :
    ∃ c cs, n.text = c :: cs ∧ (c = '-' ∨ c.isDigit = true) := by
  cases n with
  | int i =>
      rw [Number.text, Number.intText]
      split
      · exact ⟨_, _, rfl, .inl rfl⟩
      · obtain ⟨d, ds, hds⟩ :=
          List.exists_cons_of_ne_nil (Nat.toDigits_ne_nil (n := i.natAbs) (b := 10))
        exact ⟨d, ds, hds, .inr (isDigit_of_mem_toDigits d (hds ▸ List.mem_cons_self ..))⟩
  | float x =>
      cases h
      have htext : (Number.float (-0.0)).text = ['-', '0', '.', '0'] := by decide +kernel
      exact ⟨_, _, htext, .inl rfl⟩

/-! ## Layouts -/

/-- The blanks between the parts of a document. -/
structure Layout where
  /-- before an item, a member or a closing bracket at a level -/
  gap : Nat → List Char
  /-- after the colon of a member -/
  space : List Char
  isBlank_gap : ∀ level, ∀ c ∈ gap level, isBlank c = true
  isBlank_space : ∀ c ∈ space, isBlank c = true

namespace Layout

/-- No blanks. -/
def compact : Layout where
  gap _ := []
  space := []
  isBlank_gap := by simp
  isBlank_space := by simp

/-- Every item on a line of its own. -/
def pretty : Layout where
  gap := Json.newline
  space := [' ']
  isBlank_gap := by
    intro level c hc
    rcases List.mem_cons.mp hc with rfl | hspace
    · rfl
    · rw [List.eq_of_mem_replicate hspace]
      rfl
  isBlank_space := List.forall_mem_singleton.mpr rfl

mutual

/-- The document in a layout, from the given level on. -/
def text (l : Layout) (level : Nat) : Json → List Char
  | .null => "null".toList
  | .bool true => "true".toList
  | .bool false => "false".toList
  | .number n => n.text
  | .string s => Json.quoted s
  | .array [] => ['[', ']']
  | .array (item :: rest) =>
    '[' :: l.gap (level + 1) ++ text l (level + 1) item ++ moreItems l level rest
  | .object [] => ['{', '}']
  | .object ((name, value) :: rest) =>
    '{' :: l.gap (level + 1) ++ Json.quoted name ++ ':' :: l.space ++ text l (level + 1) value
      ++ moreMembers l level rest

/-- The items after the first, up to and with the closing bracket. -/
def moreItems (l : Layout) (level : Nat) : List Json → List Char
  | [] => l.gap level ++ [']']
  | item :: rest =>
    ',' :: l.gap (level + 1) ++ text l (level + 1) item ++ moreItems l level rest

/-- The members after the first, up to and with the closing brace. -/
def moreMembers (l : Layout) (level : Nat) : List (String × Json) → List Char
  | [] => l.gap level ++ ['}']
  | (name, value) :: rest =>
    ',' :: l.gap (level + 1) ++ Json.quoted name ++ ':' :: l.space ++ text l (level + 1) value
      ++ moreMembers l level rest

end

mutual

theorem compactText_eq (level : Nat) : (json : Json) → Json.compactText json = compact.text level json
  | .null | .bool true | .bool false | .number _ | .string _ | .array [] | .object [] => rfl
  | .array (item :: rest) => by
      rw [Json.compactText, text, compactText_eq (level + 1) item, compactItems_eq level rest]
      rfl
  | .object ((name, value) :: rest) => by
      rw [Json.compactText, text, compactText_eq (level + 1) value, compactMembers_eq level rest]
      simp [compact]

theorem compactItems_eq (level : Nat) : (items : List Json) →
    Json.compactItems items = compact.moreItems level items
  | [] => rfl
  | item :: rest => by
      rw [Json.compactItems, moreItems, compactText_eq (level + 1) item, compactItems_eq level rest]
      rfl

theorem compactMembers_eq (level : Nat) : (members : List (String × Json)) →
    Json.compactMembers members = compact.moreMembers level members
  | [] => rfl
  | (name, value) :: rest => by
      rw [Json.compactMembers, moreMembers, compactText_eq (level + 1) value,
        compactMembers_eq level rest]
      simp [compact]

end

mutual

theorem prettyText_eq (level : Nat) : (json : Json) → Json.prettyText level json = pretty.text level json
  | .null | .bool true | .bool false | .number _ | .string _ | .array [] | .object [] => rfl
  | .array (item :: rest) => by
      rw [Json.prettyText, text, prettyText_eq (level + 1) item, prettyItems_eq level rest]
      rfl
  | .object ((name, value) :: rest) => by
      rw [Json.prettyText, text, prettyText_eq (level + 1) value, prettyMembers_eq level rest]
      simp [pretty]

theorem prettyItems_eq (level : Nat) : (items : List Json) →
    Json.prettyItems level items = pretty.moreItems level items
  | [] => rfl
  | item :: rest => by
      rw [Json.prettyItems, moreItems, prettyText_eq (level + 1) item, prettyItems_eq level rest]
      rfl

theorem prettyMembers_eq (level : Nat) : (members : List (String × Json)) →
    Json.prettyMembers level members = pretty.moreMembers level members
  | [] => rfl
  | (name, value) :: rest => by
      rw [Json.prettyMembers, moreMembers, prettyText_eq (level + 1) value,
        prettyMembers_eq level rest]
      simp [pretty]

end

end Layout

/-! ## Values -/

namespace Json

mutual

/-- The value is one that a document holds: at most `depth` arrays and objects stand around each other, no
object has a name twice, and the numbers are whole. -/
def IsDocument (depth : Nat) : Json → Prop
  | .number n => n.IsWhole
  | .array items => 0 < depth ∧ AreDocuments (depth - 1) items
  | .object members =>
    0 < depth ∧ (members.map Prod.fst).Nodup ∧ MembersAreDocuments (depth - 1) members
  | _ => True

/-- All items are values that a document holds. -/
def AreDocuments (depth : Nat) : List Json → Prop
  | [] => True
  | item :: rest => IsDocument depth item ∧ AreDocuments depth rest

/-- All members have values that a document holds. -/
def MembersAreDocuments (depth : Nat) : List (String × Json) → Prop
  | [] => True
  | (_, value) :: rest => IsDocument depth value ∧ MembersAreDocuments depth rest

end

end Json

theorem value?_numeral {c : Char} (h : c = '-' ∨ c.isDigit = true) (fuel : Nat) (cs : List Char) :
    value? (fuel + 1) (c :: cs) = (numeral? (c :: cs)).map fun (n, after) => (.number n, after) := by
  have hne : ∀ d : Char, d ≠ '-' → d.isDigit = false → c ≠ d := by
    rintro d hminus hdigit rfl
    rcases h with heq | hdig
    · exact hminus heq
    · rw [hdigit] at hdig
      cases hdig
  have hblank : isBlank c = false := by
    simp [isBlank, hne ' ' (by decide) (by decide), hne '\t' (by decide) (by decide),
      hne '\n' (by decide) (by decide), hne '\r' (by decide) (by decide)]
  rw [value?, skipBlanks_cons hblank]
  split
  case h_7 => rfl
  all_goals
    rename_i heq
    exact absurd (List.cons.inj heq).1 (hne _ (by decide) (by decide))

theorem value?_blanks {blanks : List Char} (h : ∀ c ∈ blanks, isBlank c = true) (fuel : Nat)
    (cs : List Char) : value? fuel (blanks ++ cs) = value? fuel cs := by
  cases fuel with
  | zero => rw [value?, value?]
  | succ fuel => rw [value?, value?, skipBlanks_append h]

/-! ### One step of the reader -/

theorem value?_items {fuel : Nat} {cs after : List Char} {drafts : List Draft} {c : Char}
    {rest : List Char} (hcs : skipBlanks cs = c :: rest) (hc : c ≠ ']')
    (h : items? fuel (c :: rest) = some (drafts, after)) :
    value? (fuel + 1) ('[' :: cs) = some (.array drafts, after) := by
  rw [value?, skipBlanks_cons (by decide)]
  simp only [hcs]
  split
  next heq => exact absurd (List.cons.inj heq).1 hc
  next => rw [h]; rfl

theorem value?_members {fuel : Nat} {cs after : List Char} {drafts : List (Option String × Draft)}
    {rest : List Char} (hcs : skipBlanks cs = '"' :: rest)
    (h : members? fuel ('"' :: rest) = some (drafts, after)) :
    value? (fuel + 1) ('{' :: cs) = some (.object drafts, after) := by
  rw [value?, skipBlanks_cons (by decide)]
  simp only [hcs]
  exact congrArg (Option.map _) h

theorem items?_close {fuel : Nat} {cs rest after : List Char} {draft : Draft}
    (hvalue : value? fuel cs = some (draft, rest)) (hrest : skipBlanks rest = ']' :: after) :
    items? (fuel + 1) cs = some ([draft], after) := by
  rw [items?, hvalue]
  simp only [hrest]

theorem items?_next {fuel : Nat} {cs rest more after : List Char} {draft : Draft} {drafts : List Draft}
    (hvalue : value? fuel cs = some (draft, rest)) (hrest : skipBlanks rest = ',' :: more)
    (hmore : items? fuel more = some (drafts, after)) :
    items? (fuel + 1) cs = some (draft :: drafts, after) := by
  rw [items?, hvalue]
  simp only [hrest, hmore, Option.map_some]

theorem members?_close {fuel : Nat} {cs value rest after : List Char} {name : String} {draft : Draft}
    (hcs : skipBlanks cs = Json.quoted name ++ ':' :: value)
    (hvalue : value? fuel value = some (draft, rest)) (hrest : skipBlanks rest = '}' :: after) :
    members? (fuel + 1) cs = some ([(some name, draft)], after) := by
  have hcolon := skipBlanks_cons (show isBlank ':' = false by decide) value
  rw [members?, hcs, quoted_append]
  simp only [string?_quoted, hcolon, hvalue, hrest]

theorem members?_next {fuel : Nat} {cs value rest more after : List Char} {name : String} {draft : Draft}
    {drafts : List (Option String × Draft)} (hcs : skipBlanks cs = Json.quoted name ++ ':' :: value)
    (hvalue : value? fuel value = some (draft, rest)) (hrest : skipBlanks rest = ',' :: more)
    (hmore : members? fuel more = some (drafts, after)) :
    members? (fuel + 1) cs = some ((some name, draft) :: drafts, after) := by
  have hcolon := skipBlanks_cons (show isBlank ':' = false by decide) value
  rw [members?, hcs, quoted_append]
  simp only [string?_quoted, hcolon, hvalue, hrest, hmore, Option.map_some]

/-! ### Where values begin and end -/

theorem isBlank_of_isDigit {c : Char} (h : c = '-' ∨ c.isDigit = true) : isBlank c = false ∧ c ≠ ']' := by
  constructor
  · rw [Bool.eq_false_iff]
    intro hblank
    simp only [isBlank, Bool.or_eq_true, beq_iff_eq] at hblank
    rcases hblank with ((rfl | rfl) | rfl) | rfl <;> revert h <;> decide
  · rintro rfl
    revert h
    decide

/-- What a value is written as starts with neither a blank nor a closing bracket. -/
theorem text_head (l : Layout) (level : Nat) {depth : Nat} {json : Json} (h : json.IsDocument depth) :
    ∃ c cs, l.text level json = c :: cs ∧ isBlank c = false ∧ c ≠ ']' := by
  match json with
  | .null | .bool true | .bool false | .string _ | .array [] | .array (_ :: _) | .object []
  | .object ((_, _) :: _) => exact ⟨_, _, rfl, by decide, by decide⟩
  | .number n =>
      rw [Json.IsDocument] at h
      obtain ⟨c, cs, hcs, hc⟩ := numberText_head h
      exact ⟨c, cs, hcs, isBlank_of_isDigit hc⟩

theorem endsNumeral_blanks {blanks : List Char} (h : ∀ c ∈ blanks, isBlank c = true) {cs : List Char}
    (hcs : endsNumeral cs = true) : endsNumeral (blanks ++ cs) = true := by
  cases blanks with
  | nil => exact hcs
  | cons c blanks =>
      have hc := h c (List.mem_cons_self ..)
      simp only [isBlank, Bool.or_eq_true, beq_iff_eq] at hc
      rcases hc with ((rfl | rfl) | rfl) | rfl <;> rfl

theorem endsNumeral_moreItems (l : Layout) (level : Nat) (items : List Json) (rest : List Char) :
    endsNumeral (l.moreItems level items ++ rest) = true := by
  cases items with
  | nil =>
      rw [Layout.moreItems, List.append_assoc]
      exact endsNumeral_blanks (l.isBlank_gap level) rfl
  | cons item items => rfl

theorem endsNumeral_moreMembers (l : Layout) (level : Nat) (members : List (String × Json))
    (rest : List Char) : endsNumeral (l.moreMembers level members ++ rest) = true := by
  cases members with
  | nil =>
      rw [Layout.moreMembers, List.append_assoc]
      exact endsNumeral_blanks (l.isBlank_gap level) rfl
  | cons member members => rfl

/-! ### All of a value -/

mutual

/-- What a value is written as is read up to its end as a draft of that value. -/
theorem exists_value? (l : Layout) : (json : Json) → (level fuel : Nat) → {depth : Nat} →
    {rest : List Char} → json.IsDocument depth → 2 * (l.text level json).length ≤ fuel → endsNumeral rest = true →
    ∃ draft, value? fuel (l.text level json ++ rest) = some (draft, rest) ∧
      draft.toJson? depth = some json
  | json, level, 0, depth, rest, hjson, hfuel, hrest => by
      obtain ⟨c, cs, hcs, -⟩ := text_head l level hjson
      rw [hcs, List.length_cons] at hfuel
      omega
  | .null, _, fuel + 1, _, rest, _, _, _ => ⟨.null, rfl, rfl⟩
  | .bool true, _, fuel + 1, _, rest, _, _, _ => ⟨.bool true, rfl, rfl⟩
  | .bool false, _, fuel + 1, _, rest, _, _, _ => ⟨.bool false, rfl, rfl⟩
  | .number n, level, fuel + 1, depth, rest, hjson, _, hrest => by
      rw [Json.IsDocument] at hjson
      obtain ⟨numeral, hnumeral, hnumber⟩ := exists_numeral? hjson hrest
      obtain ⟨c, cs, hcs, hc⟩ := numberText_head hjson
      refine ⟨.number numeral, ?_, ?_⟩
      · rw [hcs, List.cons_append] at hnumeral
        rw [Layout.text, hcs, List.cons_append, value?_numeral hc, hnumeral]
        rfl
      · rw [toJson?, hnumber]
        rfl
  | .string s, level, fuel + 1, depth, rest, _, _, _ => by
      refine ⟨.string (some s), ?_, rfl⟩
      rw [Layout.text, quoted_append, value?, skipBlanks_cons (by decide)]
      simp only [string?_quoted, Option.map_some]
  | .array [], level, fuel + 1, depth, rest, hjson, _, _ => by
      rw [Json.IsDocument] at hjson
      refine ⟨.array [], rfl, ?_⟩
      rw [toJson?, if_neg (by omega)]
      rfl
  | .array (item :: items), level, fuel + 1, depth, rest, hjson, hfuel, hrest => by
      rw [Json.IsDocument, Json.AreDocuments] at hjson
      obtain ⟨hdepth, hitem, hitems⟩ := hjson
      simp only [Layout.text, List.length_append, List.length_cons] at hfuel
      obtain ⟨fuel, rfl⟩ : ∃ k, fuel = k + 1 := ⟨fuel - 1, by omega⟩
      obtain ⟨draft, hdraft, hvalue⟩ := exists_value? l item (level + 1) fuel hitem
        (by omega) (endsNumeral_moreItems l level items rest)
      obtain ⟨drafts, hdrafts, hvalues⟩ := exists_items? l items hitems hdraft (by omega)
      obtain ⟨c, cs, hcs, hblank, hc⟩ := text_head l (level + 1) hitem
      refine ⟨.array (draft :: drafts), ?_, ?_⟩
      · rw [hcs, List.cons_append] at hdrafts
        simp only [Layout.text, hcs, List.cons_append, List.append_assoc]
        refine value?_items ?_ hc hdrafts
        rw [skipBlanks_append (l.isBlank_gap _), skipBlanks_cons hblank]
      · rw [toJson?, if_neg (by omega), itemValues?, hvalue, hvalues]
        rfl
  | .object [], level, fuel + 1, depth, rest, hjson, _, _ => by
      rw [Json.IsDocument] at hjson
      refine ⟨.object [], rfl, ?_⟩
      rw [toJson?, if_neg (by omega)]
      rfl
  | .object ((name, value) :: members), level, fuel + 1, depth, rest, hjson, hfuel, hrest => by
      rw [Json.IsDocument, Json.MembersAreDocuments] at hjson
      obtain ⟨hdepth, hnames, hmember, hmembers⟩ := hjson
      simp only [Layout.text, List.length_append, List.length_cons] at hfuel
      obtain ⟨fuel, rfl⟩ : ∃ k, fuel = k + 1 := ⟨fuel - 1, by omega⟩
      obtain ⟨draft, hdraft, hvalue⟩ := exists_value? l value (level + 1) fuel hmember
        (by omega) (endsNumeral_moreMembers l level members rest)
      rw [← value?_blanks l.isBlank_space] at hdraft
      obtain ⟨drafts, hdrafts, hvalues⟩ := exists_members? l members hmembers
        (skipBlanks_quoted name _) hdraft (by omega)
      have hpairs : memberValues? (depth - 1) ((some name, draft) :: drafts) =
          some ((name, value) :: members) := by
        simp only [memberValues?, hvalue, hvalues]
      refine ⟨.object ((some name, draft) :: drafts), ?_, ?_⟩
      · simp only [Layout.text, List.cons_append, List.append_assoc]
        refine value?_members ?_ hdrafts
        rw [skipBlanks_append (l.isBlank_gap _), skipBlanks_quoted]
        rfl
      · rw [toJson?, if_neg (by omega), hpairs, Option.map_some, Entries.ofPairs_eq_self hnames]

/-- The items after one that was read are read up to the closing bracket. -/
theorem exists_items? (l : Layout) : (items : List Json) → {level depth fuel : Nat} →
    {cs rest : List Char} → {draft : Draft} → Json.AreDocuments depth items →
    value? fuel cs = some (draft, l.moreItems level items ++ rest) →
    2 * (l.moreItems level items).length ≤ fuel →
    ∃ drafts, items? (fuel + 1) cs = some (draft :: drafts, rest) ∧ itemValues? depth drafts = some items
  | [], level, depth, fuel, cs, rest, draft, _, hvalue, _ => by
      refine ⟨[], items?_close hvalue ?_, rfl⟩
      rw [Layout.moreItems, List.append_assoc, skipBlanks_append (l.isBlank_gap level)]
      exact skipBlanks_cons (by decide) rest
  | item :: items, level, depth, fuel, cs, rest, draft, hitems, hvalue, hfuel => by
      rw [Json.AreDocuments] at hitems
      simp only [Layout.moreItems, List.length_append, List.length_cons] at hfuel
      obtain ⟨fuel, rfl⟩ : ∃ k, fuel = k + 1 := ⟨fuel - 1, by omega⟩
      obtain ⟨next, hnext, hnextValue⟩ := exists_value? l item (level + 1) fuel hitems.1
        (by omega) (endsNumeral_moreItems l level items rest)
      rw [← value?_blanks (l.isBlank_gap (level + 1))] at hnext
      obtain ⟨drafts, hdrafts, hvalues⟩ := exists_items? l items hitems.2 hnext (by omega)
      refine ⟨next :: drafts, items?_next hvalue ?_ hdrafts, ?_⟩
      · simp only [Layout.moreItems, List.cons_append, List.append_assoc]
        exact skipBlanks_cons (by decide) _
      · rw [itemValues?, hnextValue, hvalues]

/-- The members after one that was read are read up to the closing brace. -/
theorem exists_members? (l : Layout) : (members : List (String × Json)) → {level depth fuel : Nat} →
    {cs value rest : List Char} → {name : String} → {draft : Draft} →
    Json.MembersAreDocuments depth members → skipBlanks cs = Json.quoted name ++ ':' :: value →
    value? fuel value = some (draft, l.moreMembers level members ++ rest) →
    2 * (l.moreMembers level members).length ≤ fuel →
    ∃ drafts, members? (fuel + 1) cs = some ((some name, draft) :: drafts, rest) ∧
      memberValues? depth drafts = some members
  | [], level, depth, fuel, cs, value, rest, name, draft, _, hcs, hvalue, _ => by
      refine ⟨[], members?_close hcs hvalue ?_, rfl⟩
      rw [Layout.moreMembers, List.append_assoc, skipBlanks_append (l.isBlank_gap level)]
      exact skipBlanks_cons (by decide) rest
  | (nextName, json) :: members, level, depth, fuel, cs, value, rest, name, draft, hmembers, hcs, hvalue,
    hfuel => by
      rw [Json.MembersAreDocuments] at hmembers
      simp only [Layout.moreMembers, List.length_append, List.length_cons] at hfuel
      obtain ⟨fuel, rfl⟩ : ∃ k, fuel = k + 1 := ⟨fuel - 1, by omega⟩
      obtain ⟨next, hnext, hnextValue⟩ := exists_value? l json (level + 1) fuel hmembers.1
        (by omega) (endsNumeral_moreMembers l level members rest)
      rw [← value?_blanks l.isBlank_space] at hnext
      have hname : ∀ cs, skipBlanks (l.gap (level + 1) ++ (Json.quoted nextName ++ cs)) =
          Json.quoted nextName ++ cs := by
        intro cs
        rw [skipBlanks_append (l.isBlank_gap (level + 1)), skipBlanks_quoted]
      obtain ⟨drafts, hdrafts, hvalues⟩ := exists_members? l members hmembers.2 (hname _) hnext (by omega)
      refine ⟨(some nextName, next) :: drafts, members?_next hcs hvalue ?_ hdrafts, ?_⟩
      · simp only [Layout.moreMembers, List.cons_append, List.append_assoc]
        exact skipBlanks_cons (by decide) _
      · simp only [memberValues?, hnextValue, hvalues]

end

/-! ## Documents -/

/-- A whole text in a layout, with a final line end, is read as the value that it was written for. -/
theorem readWithin?_text (l : Layout) {depth : Nat} {json : Json} (h : json.IsDocument depth) :
    Json.readWithin? depth ((String.ofList (l.text 0 json)).push '\n') = some json := by
  obtain ⟨draft, hdraft, hvalue⟩ := exists_value? l json 0
    (2 * (l.text 0 json ++ ['\n']).length + 2) h (by rw [List.length_append]; omega)
    (show endsNumeral ['\n'] = true from rfl)
  have hread : Draft.read? ((String.ofList (l.text 0 json)).push '\n') = some draft := by
    rw [Draft.read?, String.toList_push, String.toList_ofList, hdraft]
    rfl
  rw [Json.readWithin?, hread]
  exact hvalue

/-- A document in either form is read as the value that it was written for. -/
theorem readWithin?_document {depth : Nat} {json : Json} (h : json.IsDocument depth)
    (compactForm : Bool) : Json.readWithin? depth (json.document compactForm) = some json := by
  cases compactForm with
  | true =>
      rw [Json.document, if_pos rfl, Json.compact, Layout.compactText_eq 0]
      exact readWithin?_text .compact h
  | false =>
      rw [Json.document, if_neg (by decide), Json.pretty, Layout.prettyText_eq]
      exact readWithin?_text .pretty h

end Minifier
