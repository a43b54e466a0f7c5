import Mathlib.Data.List.Nodup
import Minifier.Entries

/-!
# Entries with distinct keys

What `ofPairs` makes of a list of pairs has distinct keys (`nodup_keys_ofPairs`) and no entries but the pairs
(`mem_ofPairs`), and a list whose keys are distinct already is left as it is (`ofPairs_eq_self`).

Values with distinct keys that are written one after the other are written all at once
(`mergeEach?_eq_mergeAll?`).
-/

namespace Minifier.Entries

variable {κ α β : Type} [DecidableEq κ]

/-- An entry after writing is the one that was written, or was there before. -/
theorem mem_set {entries : List (κ × α)} {key : κ} {value : α} {entry : κ × α}
    (h : entry ∈ set entries key value) : entry = (key, value) ∨ entry ∈ entries := by
  induction entries with
  | nil => exact .inl (List.mem_singleton.mp h)
  | cons first rest ih =>
      obtain ⟨k, v⟩ := first
      by_cases hk : k = key
      · rw [set, if_pos hk] at h
        rcases List.mem_cons.mp h with rfl | h
        · exact .inl (by rw [hk])
        · exact .inr (List.mem_cons_of_mem _ h)
      · rw [set, if_neg hk] at h
        rcases List.mem_cons.mp h with rfl | h
        · exact .inr (List.mem_cons_self ..)
        · exact (ih h).imp_right (List.mem_cons_of_mem _)

/-- In a list without repeated keys every entry is found. -/
theorem get?_of_mem {entries : List (κ × α)} {key : κ} {value : α} (h : (entries.map Prod.fst).Nodup)
    (hmem : (key, value) ∈ entries) : get? entries key = some value := by
  induction entries with
  | nil => cases hmem
  | cons first rest ih =>
      obtain ⟨k, v⟩ := first
      rw [List.map_cons, List.nodup_cons] at h
      rcases List.mem_cons.mp hmem with heq | hmem
      · cases heq
        exact if_pos rfl
      · have hne : k ≠ key := by
          rintro rfl
          exact h.1 (List.mem_map.mpr ⟨_, hmem, rfl⟩)
        rw [get?, if_neg hne]
        exact ih h.2 hmem

theorem get?_mapValues (f : α → β) (entries : List (κ × α)) (key : κ) :
    get? (entries.map fun entry => (entry.1, f entry.2)) key = (get? entries key).map f := by
  induction entries with
  | nil => rfl
  | cons entry rest ih =>
      obtain ⟨k, v⟩ := entry
      by_cases h : k = key
      · simp [get?, h]
      · simp only [List.map_cons, get?, if_neg h, ih]

theorem set_mapValues (f : α → β) (entries : List (κ × α)) (key : κ) (value : α) :
    set (entries.map fun entry => (entry.1, f entry.2)) key (f value)
      = (set entries key value).map fun entry => (entry.1, f entry.2) := by
  induction entries with
  | nil => rfl
  | cons entry rest ih =>
      obtain ⟨k, v⟩ := entry
      by_cases h : k = key
      · simp [set, h]
      · simp only [List.map_cons, set, if_neg h, ih]

theorem erase_mapValues (f : α → β) (entries : List (κ × α)) (key : κ) :
    erase (entries.map fun entry => (entry.1, f entry.2)) key
      = (erase entries key).map fun entry => (entry.1, f entry.2) := by
  induction entries with
  | nil => rfl
  | cons entry rest ih =>
      obtain ⟨k, v⟩ := entry
      by_cases h : k = key
      · simp [erase, h]
      · simp only [List.map_cons, erase, if_neg h, ih]

theorem get?_eq_none_iff {entries : List (κ × α)} {key : κ} :
    get? entries key = none ↔ key ∉ entries.map Prod.fst := by
  induction entries with
  | nil => simp
  | cons entry rest ih =>
      obtain ⟨k, v⟩ := entry
      by_cases hk : k = key
      · simp [get?, hk]
      · simp [get?, hk, ih, Ne.symm hk]

/-- Taking out one key leaves what is found under the others. -/
theorem get?_erase_of_ne {entries : List (κ × α)} {key other : κ} (h : other ≠ key) :
    get? (erase entries key) other = get? entries other := by
  induction entries with
  | nil => rfl
  | cons entry rest ih =>
      obtain ⟨k, v⟩ := entry
      by_cases hk : k = key
      · rw [erase, if_pos hk, get?, if_neg (fun ho => h (ho.symm.trans hk))]
      · rw [erase, if_neg hk, get?, get?, ih]

/-- An entry after taking one out was there before. -/
theorem mem_of_mem_erase {entries : List (κ × α)} {key : κ} {entry : κ × α}
    (h : entry ∈ erase entries key) : entry ∈ entries := by
  induction entries with
  | nil => exact h
  | cons first rest ih =>
      obtain ⟨k, v⟩ := first
      by_cases hk : k = key
      · rw [erase, if_pos hk] at h
        exact List.mem_cons_of_mem _ h
      · rw [erase, if_neg hk] at h
        rcases List.mem_cons.mp h with rfl | h
        · exact List.mem_cons_self ..
        · exact List.mem_cons_of_mem _ (ih h)

theorem set_of_not_mem {entries : List (κ × α)} {key : κ} (h : key ∉ entries.map Prod.fst) (value : α) :
    set entries key value = entries ++ [(key, value)] := by
  induction entries with
  | nil => rfl
  | cons entry rest ih =>
      obtain ⟨k, v⟩ := entry
      rw [List.map_cons, List.mem_cons, not_or] at h
      rw [set, if_neg (Ne.symm h.1), ih h.2, List.cons_append]

/-- A key that is there is written where it stands first. -/
theorem exists_split {entries : List (κ × α)} {key : κ} {value : α} (h : get? entries key = some value) :
    ∃ front back, entries = front ++ (key, value) :: back ∧
      ∀ new, set entries key new = front ++ (key, new) :: back := by
  induction entries with
  | nil => cases h
  | cons entry rest ih =>
      obtain ⟨k, v⟩ := entry
      by_cases hk : k = key
      · subst hk
        rw [get?, if_pos rfl] at h
        cases h
        exact ⟨[], rest, rfl, fun new => if_pos rfl⟩
      · rw [get?, if_neg hk] at h
        obtain ⟨front, back, hentries, hset⟩ := ih h
        refine ⟨(k, v) :: front, back, congrArg _ hentries, fun new => ?_⟩
        rw [set, if_neg hk, hset]
        rfl

theorem nodup_keys_set {entries : List (κ × α)} (h : (entries.map Prod.fst).Nodup) (key : κ) (value : α) :
    ((set entries key value).map Prod.fst).Nodup := by
  rw [keys_set]
  split
  · exact h
  next hkey => exact List.nodup_append_comm.mp (List.nodup_cons.mpr ⟨hkey, h⟩)

/-- What holds of no entries and is kept by writing a pair holds of the entries of the pairs. -/
theorem ofPairs_induction {motive : List (κ × α) → Prop} {pairs : List (κ × α)} (hnil : motive [])
    (hset : ∀ entries, ∀ pair ∈ pairs, motive entries → motive (set entries pair.1 pair.2)) :
    motive (ofPairs pairs) := by
  have hall : ∀ rest ⊆ pairs, ∀ entries, motive entries →
      motive (rest.foldl (fun entries pair => set entries pair.1 pair.2) entries) := by
    intro rest
    induction rest with
    | nil => exact fun _ _ h => h
    | cons pair rest ih =>
        intro hsub entries hentries
        obtain ⟨hpair, hrest⟩ := List.cons_subset.mp hsub
        exact ih hrest _ (hset entries pair hpair hentries)
  exact hall pairs (List.Subset.refl _) [] hnil

theorem nodup_keys_ofPairs (pairs : List (κ × α)) : ((ofPairs pairs).map Prod.fst).Nodup := by
  apply ofPairs_induction (motive := fun entries => (entries.map Prod.fst).Nodup)
  · exact List.nodup_nil
  · intro entries pair _ hentries
    exact nodup_keys_set hentries pair.1 pair.2

theorem mem_ofPairs {pairs : List (κ × α)} {entry : κ × α} (h : entry ∈ ofPairs pairs) :
    entry ∈ pairs := by
  revert entry
  apply ofPairs_induction (motive := fun entries => ∀ {entry}, entry ∈ entries → entry ∈ pairs)
  · intro entry hentry
    cases hentry
  · intro entries pair hpair hentries entry hentry
    rcases mem_set hentry with rfl | hentry
    · exact hpair
    · exact hentries hentry

/-- A list without repeated keys is the list of its entries. -/
theorem ofPairs_eq_self {pairs : List (κ × α)} (h : (pairs.map Prod.fst).Nodup) :
    ofPairs pairs = pairs := by
  -- The pairs that were taken in already have other keys than those to come.
  have hall : ∀ (rest done : List (κ × α)), ((done ++ rest).map Prod.fst).Nodup →
      rest.foldl (fun entries pair => set entries pair.1 pair.2) done = done ++ rest := by
    intro rest
    induction rest with
    | nil => simp
    | cons pair rest ih =>
        intro done hnodup
        have hfresh : pair.1 ∉ done.map Prod.fst := by
          rw [List.map_append, List.nodup_append] at hnodup
          intro hmem
          exact hnodup.2.2 _ hmem _ (List.mem_cons_self ..) rfl
        rw [List.append_cons] at hnodup
        rw [List.foldl_cons, set_of_not_mem hfresh, ih _ hnodup, ← List.append_cons]
  exact hall pairs [] h

/-! ### Merging -/

/-- Write values one after the other, each as `f` combines it with what stands under its key. -/
def mergeEach? (f : κ → Option α → β → Option α) (old : List (κ × α)) :
    List (κ × β) → Option (List (κ × α))
  | [] => some old
  | (key, b) :: rest => (f key (get? old key) b).bind fun a => mergeEach? f (set old key a) rest

/-- What becomes of an entry among new values. -/
def mergePair? (f : κ → Option α → β → Option α) (new : List (κ × β)) (entry : κ × α) :
    Option (κ × α) :=
  match get? new entry.1 with
  | some b => (f entry.1 (some entry.2) b).map (entry.1, ·)
  | none => some entry

/-- The new values whose keys are not there yet. -/
def additions (old : List (κ × α)) (new : List (κ × β)) : List (κ × β) :=
  new.filter fun entry => (get? old entry.1).isNone

/-- All values at once: every entry keeps its place, and those with new keys come behind them in the
order of the values. -/
def mergeAll? (f : κ → Option α → β → Option α) (old : List (κ × α)) (new : List (κ × β)) :
    Option (List (κ × α)) :=
  (old.mapM (mergePair? f new)).bind fun kept =>
    ((additions old new).mapM fun entry => (f entry.1 none entry.2).map (entry.1, ·)).map (kept ++ ·)

variable {f : κ → Option α → β → Option α} {old : List (κ × α)} {new : List (κ × β)} {key : κ}

theorem mergePair?_cons_of_ne (b : β) {entry : κ × α} (h : entry.1 ≠ key) :
    mergePair? f ((key, b) :: new) entry = mergePair? f new entry := by
  rw [mergePair?, mergePair?, get?, if_neg (Ne.symm h)]

theorem mapM_mergePair?_of_not_mem (h : key ∉ old.map Prod.fst) (b : β) :
    old.mapM (mergePair? f ((key, b) :: new)) = old.mapM (mergePair? f new) := by
  induction old with
  | nil => rfl
  | cons entry rest ih =>
      rw [List.map_cons, List.mem_cons, not_or] at h
      rw [List.mapM_cons, List.mapM_cons, ih h.2, mergePair?_cons_of_ne b (Ne.symm h.1)]

theorem additions_set (h : key ∉ new.map Prod.fst) (a : α) :
    additions (set old key a) new = additions old new := by
  apply List.filter_congr
  intro entry hmem
  have hne : entry.1 ≠ key := by
    rintro rfl
    exact h (List.mem_map_of_mem hmem)
  rw [get?_set_of_ne hne]

/-- The value of a key that is there can be written ahead of the others. -/
theorem mapM_mergePair?_cons (hold : (old.map Prod.fst).Nodup) (hkey : key ∉ new.map Prod.fst) {a : α}
    (hget : get? old key = some a) (b : β) :
    old.mapM (mergePair? f ((key, b) :: new))
      = (f key (some a) b).bind fun a => (set old key a).mapM (mergePair? f new) := by
  induction old with
  | nil => cases hget
  | cons entry rest ih =>
      obtain ⟨k, v⟩ := entry
      rw [List.map_cons, List.nodup_cons] at hold
      rw [List.mapM_cons]
      by_cases hk : k = key
      · subst hk
        rw [get?, if_pos rfl] at hget
        cases hget
        have hwritten : ∀ a, mergePair? f new (k, a) = some (k, a) := by
          intro a
          rw [mergePair?, get?_eq_none_iff.mpr hkey]
        rw [mapM_mergePair?_of_not_mem hold.1, mergePair?, get?, if_pos rfl]
        cases hmade : f k (some a) b <;> simp [set, hwritten, hmade]
      · rw [get?, if_neg hk] at hget
        rw [mergePair?_cons_of_ne b hk, ih hold.2 hget]
        cases f key (some a) b <;> cases hentry : mergePair? f new (k, v) <;> simp [set, hk, hentry]

/-- Written one after the other, values with distinct keys are written all at once. -/
theorem mergeEach?_eq_mergeAll? (hold : (old.map Prod.fst).Nodup) (hnew : (new.map Prod.fst).Nodup) :
    mergeEach? f old new = mergeAll? f old new := by
  induction new generalizing old with
  | nil =>
      have hkept : ∀ old : List (κ × α), old.mapM (mergePair? f []) = some old := by
        intro old
        induction old with
        | nil => rfl
        | cons entry rest ih => simp [List.mapM_cons, ih, mergePair?]
      simp [mergeEach?, mergeAll?, hkept, additions]
  | cons entry rest ih =>
      obtain ⟨key, b⟩ := entry
      rw [List.map_cons, List.nodup_cons] at hnew
      have hrest : ∀ a, mergeEach? f (set old key a) rest = mergeAll? f (set old key a) rest :=
        fun a => ih (nodup_keys_set hold key a) hnew.2
      simp only [mergeEach?, hrest, mergeAll?, additions_set hnew.1]
      cases hget : get? old key with
      | some a =>
          have hadded : additions old ((key, b) :: rest) = additions old rest := by
            simp [additions, hget]
          rw [mapM_mergePair?_cons hold hnew.1 hget, hadded, Option.bind_assoc]
      | none =>
          have hadded : additions old ((key, b) :: rest) = (key, b) :: additions old rest := by
            simp [additions, hget]
          have hkey := get?_eq_none_iff.mp hget
          have hwritten : ∀ a, mergePair? f rest (key, a) = some (key, a) := by
            intro a
            rw [mergePair?, get?_eq_none_iff.mpr hnew.1]
          simp only [mapM_mergePair?_of_not_mem hkey, hadded, set_of_not_mem hkey, List.mapM_append,
            List.mapM_cons, List.mapM_nil, hwritten]
          cases f key none b with
          | none => cases old.mapM (mergePair? f rest) <;> simp
          | some a =>
              cases old.mapM (mergePair? f rest) with
              | none => simp
              | some left =>
                  simp only [Option.map_eq_bind, Option.bind_eq_bind, Option.bind_some, Option.bind_assoc,
                    Option.pure_def, List.append_assoc, List.singleton_append]
                  rfl

end Minifier.Entries
