/-!
# Entries: ordered association lists

Documents, syntax nodes and side tables all keep named things *in the order in which they
arrived*, so the one representation is a list of pairs. The first entry with a key is the entry
of that key:

* `get?` reads it,
* `set` writes it where it stands, or appends a new one,
* `erase` takes it out,
* `ofPairs` reads a list in which keys may repeat: a key keeps the place of its first
  occurrence and the value of its last.
-/

namespace Minifier.Entries

variable {κ α : Type} [DecidableEq κ]

/-- The value of the first entry with the key. -/
def get? : List (κ × α) → κ → Option α
  | [], _ => none
  | (k, v) :: rest, key => if k = key then some v else get? rest key

/-- Write a value in the place of the first entry with the key, or at the end. -/
def set : List (κ × α) → κ → α → List (κ × α)
  | [], key, value => [(key, value)]
  | (k, v) :: rest, key, value =>
    if k = key then (k, value) :: rest else (k, v) :: set rest key value

/-- Take out the first entry with the key. -/
def erase : List (κ × α) → κ → List (κ × α)
  | [], _ => []
  | (k, v) :: rest, key => if k = key then rest else (k, v) :: erase rest key

/-- The entries of a list of pairs: a repeated key keeps its first place and its last value. -/
def ofPairs (pairs : List (κ × α)) : List (κ × α) :=
  pairs.foldl (fun entries pair => set entries pair.1 pair.2) []

/-! ### Reading after writing -/

@[simp] theorem get?_nil (key : κ) : get? ([] : List (κ × α)) key = none := rfl

@[simp] theorem get?_set_self (entries : List (κ × α)) (key : κ) (value : α) :
    get? (set entries key value) key = some value := by
  induction entries with
  | nil => simp [set, get?]
  | cons entry rest ih =>
    obtain ⟨k, v⟩ := entry
    by_cases h : k = key <;> simp [set, get?, h, ih]

theorem get?_set_of_ne {entries : List (κ × α)} {key other : κ} {value : α} (h : other ≠ key) :
    get? (set entries key value) other = get? entries other := by
  induction entries with
  | nil => simp [set, get?, Ne.symm h]
  | cons entry rest ih =>
    obtain ⟨k, v⟩ := entry
    by_cases hk : k = key
    · subst hk
      simp [set, get?, Ne.symm h]
    · by_cases ho : k = other
      · subst ho
        simp [set, get?, hk]
      · simp [set, get?, hk, ho, ih]

/-- Of two values written under one key the second remains. -/
@[simp] theorem set_set (entries : List (κ × α)) (key : κ) (first second : α) :
    set (set entries key first) key second = set entries key second := by
  induction entries with
  | nil => simp [set]
  | cons entry rest ih =>
    obtain ⟨k, v⟩ := entry
    by_cases h : k = key <;> simp [set, h, ih]

/-- Writing what is there already changes nothing. -/
theorem set_eq_self {entries : List (κ × α)} {key : κ} {value : α}
    (h : get? entries key = some value) : set entries key value = entries := by
  induction entries with
  | nil => simp at h
  | cons entry rest ih =>
    obtain ⟨k, v⟩ := entry
    by_cases hk : k = key
    · simp_all [get?, set]
    · simp only [get?, if_neg hk] at h
      simp [set, hk, ih h]

/-- What was written under a key is taken out with it. -/
@[simp] theorem erase_set (entries : List (κ × α)) (key : κ) (value : α) :
    erase (set entries key value) key = erase entries key := by
  induction entries with
  | nil => simp [set, erase]
  | cons entry rest ih =>
    obtain ⟨k, v⟩ := entry
    by_cases h : k = key <;> simp [set, erase, h, ih]

/-- What is found under a key is an entry of the list. -/
theorem mem_of_get?_eq_some {entries : List (κ × α)} {key : κ} {value : α}
    (h : get? entries key = some value) : (key, value) ∈ entries := by
  induction entries with
  | nil => simp at h
  | cons entry rest ih =>
    obtain ⟨k, v⟩ := entry
    by_cases hk : k = key
    · simp_all [get?]
    · exact List.mem_cons_of_mem _ (ih (by simpa [get?, hk] using h))

/-! ### The keys -/

/-- Writing under a present key keeps the keys; under a new one, appends it. -/
theorem keys_set (entries : List (κ × α)) (key : κ) (value : α) :
    (set entries key value).map Prod.fst =
      if key ∈ entries.map Prod.fst then entries.map Prod.fst
      else entries.map Prod.fst ++ [key] := by
  induction entries with
  | nil => simp [set]
  | cons entry rest ih =>
    obtain ⟨k, v⟩ := entry
    by_cases hk : k = key
    · simp [set, hk]
    · by_cases hm : key ∈ rest.map Prod.fst <;> simp_all [set, Ne.symm hk]

end Minifier.Entries
