import Mathlib.Algebra.Ring.Parity
import Mathlib.Data.List.Induction
import Minifier.Expression
import Minifier.Json.Reader

/-!
# Quoted text denotes its string

The source text of a string literal is read back as the string, and ends where it was meant to end.

* `string?` reads a literal in single quotes off the front of a program text. It knows the escapes of a quote,
  of a backslash, of the two ASCII line ends and of a 16-bit unit, and refuses a line end that stands for
  itself. A character of a string is written in one of three ways (`Spelled`), each of which is read as that
  character, whatever follows (`chars?_spelled`).
* The same is said once more without a reader. A quote or a backslash is *escaped* if the run of backslashes
  before it is odd (`backslashes`). What a character is written as ends with an even run
  (`even_backslashes_spelled`), so that a quote within the text is escaped and the one that closes it is not.

**Main result**: `quote_denotes`.
-/

namespace Minifier.Expression

/-! ## Reading a literal -/

/-- The character ends a line of a program. -/
def endsLine (c : Char) : Bool := c == '\n' || c == '\r' || c.toNat == 0x2028 || c.toNat == 0x2029

/-- The character that a backslash and another character stand for. -/
def escaped? : Char → Option Char
  | '\'' => some '\''
  | '\\' => some '\\'
  | 'n' => some '\n'
  | 'r' => some '\r'
  | _ => none

/-- The character of a 16-bit unit. Half of a surrogate pair is none. -/
def charOfUnit? (u : Nat) : Option Char := if u.isValidChar then some (Char.ofNat u) else none

/-- One more character in front of what is read after it. -/
def readBefore (char? : Option Char) (read : Option (List Char × List Char)) : Option (List Char × List Char) :=
  char?.bind fun c => read.map fun (cs, after) => (c :: cs, after)

/-- The characters of a string whose opening quote has been read, and what follows the closing one. -/
def chars? : List Char → Option (List Char × List Char)
  | [] => none
  | '\'' :: rest => some ([], rest)
  | '\\' :: 'u' :: a :: b :: c :: d :: rest => readBefore ((Draft.unit? a b c d).bind charOfUnit?) (chars? rest)
  | '\\' :: e :: rest => readBefore (escaped? e) (chars? rest)
  | c :: rest => if c == '\\' || endsLine c then none else readBefore (some c) (chars? rest)

/-- A string literal in single quotes at the front of a text, and what follows it. -/
def string? : List Char → Option (String × List Char)
  | '\'' :: rest => (chars? rest).map fun (cs, after) => (String.ofList cs, after)
  | _ => none

/-! ## How a character is written -/

/-- The ways to write a character of a string: as itself, by one escape, or by the unit of a line end. -/
inductive Spelled (c : Char) : List Char → Prop where
  | plain (hquote : c ≠ '\'') (hslash : c ≠ '\\') (hline : endsLine c = false) : Spelled c [c]
  | escape (e : Char) (hletter : escaped? e = some c) : Spelled c ['\\', e]
  | unit (k : Char) (hdigit : k = '8' ∨ k = '9')
      (hunit : (Draft.unit? '2' '0' '2' k).bind charOfUnit? = some c) : Spelled c ['\\', 'u', '2', '0', '2', k]

theorem spelled_quoteChar (c : Char) : Spelled c (quoteChar c) := by
  have hunit : ∀ {k : Nat}, c.toNat = k → some (Char.ofNat k) = some c := by
    rintro k rfl
    rw [Char.ofNat_toNat]
  rw [quoteChar]
  split
  next h => subst h; exact .escape '\'' rfl
  next hquote =>
  split
  next h => subst h; exact .escape '\\' rfl
  next hslash =>
  split
  next h => subst h; exact .escape 'n' rfl
  next hfeed =>
  split
  next h => subst h; exact .escape 'r' rfl
  next hreturn =>
  split
  next h => exact .unit '8' (.inl rfl) (hunit h)
  next hline =>
  split
  next h => exact .unit '9' (.inr rfl) (hunit h)
  next hparagraph =>
  exact .plain hquote hslash (by simp [endsLine, hfeed, hreturn, hline, hparagraph])

/-- The letters of escapes. -/
theorem mem_of_escaped? {e c : Char} (h : escaped? e = some c) : e ∈ ['\'', '\\', 'n', 'r'] := by
  unfold escaped? at h
  split at h <;> simp_all

/-! ## Each character is read as itself -/

theorem chars?_spelled {c : Char} {cs : List Char} (h : Spelled c cs) (rest : List Char) :
    chars? (cs ++ rest) = readBefore (some c) (chars? rest) := by
  cases h with
  | plain hquote hslash hline =>
      rw [List.singleton_append, chars?]
      · simp [hslash, hline]
      all_goals simp_all
  | escape e hletter =>
      have hu : e ≠ 'u' := by
        rintro rfl
        cases hletter
      rw [List.cons_append, List.singleton_append, chars?, hletter]
      intro a b c d rest heq
      exact absurd heq hu
  | unit k hdigit hunit =>
      simp only [List.cons_append, List.nil_append]
      rw [chars?, hunit]

theorem chars?_flatMap (cs rest : List Char) :
    chars? (cs.flatMap quoteChar ++ '\'' :: rest) = some (cs, rest) := by
  induction cs with
  | nil => rfl
  | cons c cs ih =>
      rw [List.flatMap_cons, List.append_assoc, chars?_spelled (spelled_quoteChar c), ih]
      rfl

/-! ## Line ends -/

theorem endsLine_of_spelled {c d : Char} {cs : List Char} (h : Spelled c cs) (hd : d ∈ cs) :
    endsLine d = false := by
  cases h with
  | plain hquote hslash hline => rwa [List.mem_singleton.mp hd]
  | escape e hletter =>
      have hescape : ∀ e ∈ ['\'', '\\', 'n', 'r'], ∀ d ∈ ['\\', e], endsLine d = false := by simp [endsLine]
      exact hescape e (mem_of_escaped? hletter) d hd
  | unit k hdigit hunit =>
      have hunit : ∀ k ∈ ['8', '9'], ∀ d ∈ ['\\', 'u', '2', '0', '2', k], endsLine d = false := by
        simp [endsLine]
      exact hunit k (by simpa using hdigit) d hd

/-! ## Runs of backslashes -/

/-- The number of backslashes at the end of a text. -/
def backslashes (cs : List Char) : Nat := (cs.reverse.takeWhile (· == '\\')).length

theorem backslashes_slash (cs : List Char) : backslashes (cs ++ ['\\']) = backslashes cs + 1 := by
  simp [backslashes]

theorem backslashes_other {c : Char} (h : c ≠ '\\') (cs : List Char) : backslashes (cs ++ [c]) = 0 := by
  simp [backslashes, h]

/-- A character that is written as a whole leaves no backslash behind that would escape what follows it. -/
theorem even_backslashes_spelled {c : Char} {cs body : List Char} (h : Spelled c cs)
    (hbody : Even (backslashes body)) : Even (backslashes (body ++ cs)) := by
  cases h with
  | plain hquote hslash hline => rw [backslashes_other hslash]; exact Even.zero
  | escape e hletter =>
      rw [List.append_cons]
      by_cases he : e = '\\'
      · subst he
        rw [backslashes_slash, backslashes_slash, Nat.add_assoc]
        exact hbody.add even_two
      · rw [backslashes_other he]
        exact Even.zero
  | unit k hdigit hunit =>
      have hk : k ≠ '\\' := by rintro rfl; simp at hdigit
      rw [show body ++ ['\\', 'u', '2', '0', '2', k] = (body ++ ['\\', 'u', '2', '0', '2']) ++ [k] by simp,
        backslashes_other hk]
      exact Even.zero

/-- A quote in what a character is written as is escaped by a backslash of its own. -/
theorem odd_backslashes_spelled {c : Char} {cs body before after : List Char} (h : Spelled c cs)
    (hbody : Even (backslashes body)) (hquote : cs = before ++ '\'' :: after) :
    Odd (backslashes (body ++ before)) := by
  cases h with
  | plain hne hslash hline =>
      rcases before with _ | ⟨b, before⟩ <;> simp_all
  | escape e hletter =>
      rcases before with _ | ⟨b, before⟩
      · simp at hquote
      · obtain ⟨rfl, hrest⟩ := List.cons.inj hquote
        rcases before with _ | ⟨b, before⟩
        · rw [backslashes_slash]
          exact hbody.add_one
        · simp at hrest
  | unit k hdigit hunit =>
      have hmem : '\'' ∈ ['\\', 'u', '2', '0', '2', k] := by rw [hquote]; simp
      rcases hdigit with rfl | rfl <;> simp at hmem

theorem even_backslashes_flatMap (cs : List Char) : Even (backslashes (cs.flatMap quoteChar)) := by
  induction cs using List.reverseRecOn with
  | nil => exact Even.zero
  | append_singleton cs c ih =>
      rw [List.flatMap_append, List.flatMap_singleton]
      exact even_backslashes_spelled (spelled_quoteChar c) ih

theorem odd_backslashes_of_quote {cs before after : List Char}
    (h : cs.flatMap quoteChar = before ++ '\'' :: after) : Odd (backslashes before) := by
  induction cs using List.reverseRecOn generalizing after with
  | nil => simp at h
  | append_singleton cs c ih =>
      rw [List.flatMap_append, List.flatMap_singleton] at h
      -- The quote stands in what was written before the last character, or in what that one is written as.
      rcases List.append_eq_append_iff.mp h with ⟨inside, hbefore, hlast⟩ | ⟨inside, hcs, hafter⟩
      · rw [hbefore]
        exact odd_backslashes_spelled (spelled_quoteChar c) (even_backslashes_flatMap cs) hlast
      · rcases inside with _ | ⟨q, inside⟩
        · rw [List.append_nil] at hcs
          have hodd : Odd (backslashes (cs.flatMap quoteChar ++ [])) :=
            odd_backslashes_spelled (spelled_quoteChar c) (even_backslashes_flatMap cs) hafter.symm
          rwa [List.append_nil, hcs] at hodd
        · obtain ⟨rfl, rfl⟩ := List.cons.inj hafter
          exact ih hcs

/-! ## The literal of a string -/

/-- **The source text of a string literal denotes the string.** It stands in single quotes. Between them every
single quote is escaped, no line ends, and no backslash is left over to escape the closing quote. Read at the front
of any program text, the literal is the string, and what follows it is what followed. -/
theorem quote_denotes (s : String) :
    ∃ body : List Char,
      (literal (.string s)).text? "raw" = some (String.ofList ('\'' :: body ++ ['\''])) ∧
        (∀ before after, body = before ++ '\'' :: after → Odd (backslashes before)) ∧
        (∀ c ∈ body, endsLine c = false) ∧
        Even (backslashes body) ∧
        ∀ rest, string? ('\'' :: body ++ '\'' :: rest) = some (s, rest) := by
  refine ⟨s.toList.flatMap quoteChar, rfl, fun before after => odd_backslashes_of_quote, ?_,
    even_backslashes_flatMap _, ?_⟩
  · intro d hd
    obtain ⟨c, _, hmem⟩ := List.mem_flatMap.mp hd
    exact endsLine_of_spelled (spelled_quoteChar c) hmem
  · intro rest
    rw [List.cons_append, string?, chars?_flatMap]
    simp

/-- Backslashes before a quote, before a letter that would form an escape, and at the end. -/
example : quote "\\'\\n\\" = "'\\\\\\'\\\\n\\\\'" := by decide

end Minifier.Expression
