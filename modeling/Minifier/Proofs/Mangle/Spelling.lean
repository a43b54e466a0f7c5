import Minifier.Proofs.Mangle.Frame
import Minifier.Proofs.Mangle.Progress

/-!
# Spelling a tree anew

`mapNames` maps the names of all identifiers that a traversal meets, and changes nothing else.

Two trees that are spelled from the same one are equal if they have the same outlines at all positions
(`Respelled.ext`). Outlines alone would not do: of several fields with one name only the first can be
reached by a path. The others are the same in all trees that are spelled from one.
-/

namespace Minifier.Mangle

open Node

variable {kind : Kind} {name : String} {seen : List String}
  {fields fields₁ fields₂ : List (String × Field Node)} {slots slots' : List (Option Node)}
  {t a b n m : Node}

/-! ## Telling spellings apart -/

/-- Fields that are spelled from the same ones are equal if what can be read is. -/
theorem RespelledFields.ext (h₁ : RespelledFields kind seen fields fields₁)
    (h₂ : RespelledFields kind seen fields fields₂)
    (hget : ∀ name, name ∉ seen → Entries.get? fields₁ name = Entries.get? fields₂ name) :
    fields₁ = fields₂ := by
  induction fields generalizing seen fields₁ fields₂ with
  | nil =>
      cases h₁
      cases h₂
      rfl
  | cons entry fields ih =>
      cases h₁ with
      | @cons _ _ name _ content₁ _ fields₁ hfield₁ hrest₁ =>
          cases h₂ with
          | @cons _ _ _ _ content₂ _ fields₂ hfield₂ hrest₂ =>
              have hrest : fields₁ = fields₂ := by
                apply ih hrest₁ hrest₂
                intro other hother
                have hne : name ≠ other := fun heq => hother (heq ▸ List.mem_cons_self)
                have := hget other fun hmem => hother (List.mem_cons_of_mem _ hmem)
                rwa [Entries.get?, Entries.get?, if_neg hne, if_neg hne] at this
              have hcontent : content₁ = content₂ := by
                by_cases hseen : name ∈ seen
                · -- Behind a field of the same name nothing is changed.
                  have hsame : ∀ {c c'}, RespelledField kind seen name c c' → c' = c := by
                    intro c c' h
                    cases h with
                    | same => rfl
                    | name _ _ hnew => exact absurd hseen hnew
                    | shorthand _ _ hnew => exact absurd hseen hnew
                    | child _ hnew _ => exact absurd hseen hnew
                    | list _ hnew _ => exact absurd hseen hnew
                  rw [hsame hfield₁, hsame hfield₂]
                · have := hget name hseen
                  simpa [Entries.get?] using this
              rw [hrest, hcontent]

theorem RespelledFields.get?_eq_none (h : RespelledFields kind seen fields fields₁)
    (hget : Entries.get? fields name = none) : Entries.get? fields₁ name = none := by
  induction fields generalizing seen fields₁ with
  | nil =>
      cases h
      rfl
  | cons entry fields ih =>
      cases h with
      | @cons _ _ other _ _ _ fields₁ _ hrest =>
          by_cases hother : other = name
          · simp [Entries.get?, hother] at hget
          · rw [Entries.get?, if_neg hother] at hget ⊢
            exact ih hrest hget

theorem RespelledSlots.exists_of_getElem? {i : Nat} (h : RespelledSlots slots slots')
    (hslot : slots'[i]? = some (some m)) : ∃ n, slots[i]? = some (some n) ∧ Respelled n m := by
  induction slots generalizing i slots' with
  | nil =>
      cases h
      cases hslot
  | cons slot slots ih =>
      cases h with
      | hole hs =>
          cases i with
          | zero => cases hslot
          | succ i => exact ih hs hslot
      | @filled n _ _ _ h hs =>
          cases i with
          | zero =>
              cases hslot
              exact ⟨n, rfl, h⟩
          | succ i => exact ih hs hslot

/-- Every child of a respelled node was there before. -/
theorem Respelled.exists_of_step? {step : Step} (h : Respelled t a) (hstep : a.step? step = some m) :
    ∃ n, t.step? step = some n ∧ Respelled n m := by
  obtain ⟨field, index⟩ := step
  cases hget : t.get? field with
  | none =>
      have hnone : a.get? field = none := by
        cases h with
        | node h => exact h.get?_eq_none hget
      cases index <;> simp [Node.step?, child?, slots?, hnone] at hstep
  | some content =>
      obtain ⟨content', seen, hget', hfield⟩ := h.get? hget
      cases index with
      | none =>
          rw [child?_eq_some_iff.mp hstep] at hget'
          cases hget'
          cases hfield with
          | same => exact ⟨m, child?_eq_some_iff.mpr hget, .refl m⟩
          | @child _ _ _ n _ _ _ hn => exact ⟨n, child?_eq_some_iff.mpr hget, hn⟩
      | some i =>
          obtain ⟨slots', hslots', hslot⟩ := step?_slot_eq_some_iff.mp hstep
          rw [hslots'] at hget'
          cases hget'
          cases hfield with
          | same => exact ⟨m, step?_slot_eq_some_iff.mpr ⟨slots', hget, hslot⟩, .refl m⟩
          | @list _ _ _ slots _ _ _ hs =>
              obtain ⟨n, hslot', hn⟩ := hs.exists_of_getElem? hslot
              exact ⟨n, step?_slot_eq_some_iff.mpr ⟨slots, hget, hslot'⟩, hn⟩

/-- What a field holds is determined by its outline and by what is one step down. -/
theorem get?_ext (hout : a.outline = b.outline) (hstep : ∀ step, a.step? step = b.step? step)
    (name : String) : a.get? name = b.get? name := by
  have hblank : (a.get? name).map Field.blank = (b.get? name).map Field.blank := by
    rw [← get?_outline, ← get?_outline, hout]
  cases ha : a.get? name with
  | none =>
      rw [ha, Option.map_none] at hblank
      exact (Option.map_eq_none_iff.mp hblank.symm).symm
  | some c =>
      rw [ha, Option.map_some] at hblank
      obtain ⟨c', hb, hblank⟩ := Option.map_eq_some_iff.mp hblank.symm
      rw [hb]
      cases c with
      | child n =>
          have hchild := hstep ⟨name, none⟩
          rw [show a.step? ⟨name, none⟩ = some n from child?_eq_some_iff.mpr ha] at hchild
          rw [← hb, child?_eq_some_iff.mp hchild.symm]
      | value json => cases c' <;> simp_all [Field.blank]
      | list slots =>
          cases c' with
          | child n => cases hblank
          | value json => cases hblank
          | list slots' =>
              have hlength : slots'.length = slots.length := by
                have := congrArg (fun c : Field Node => (c.slots?.getD []).length) hblank
                simpa [Field.blank, Field.slots?] using this
              have hslots : slots = slots' := by
                apply List.ext_getElem?
                intro i
                have hslot := hstep ⟨name, some i⟩
                simp only [step?, slots?, ha, hb, Option.bind_some, Field.slots?] at hslot
                by_cases hi : i < slots.length
                · have hi' : i < slots'.length := hlength ▸ hi
                  rw [List.getElem?_eq_getElem hi, List.getElem?_eq_getElem hi'] at hslot ⊢
                  exact congrArg some hslot
                · rw [List.getElem?_eq_none (Nat.le_of_not_lt hi),
                    List.getElem?_eq_none (hlength ▸ Nat.le_of_not_lt hi)]
              rw [hslots]

/-- **Spellings of one tree are told apart by outlines.** -/
theorem Respelled.ext (ha : Respelled t a) (hb : Respelled t b)
    (hsketch : ∀ q, a.sketch q = b.sketch q) : a = b := by
  -- By induction on the tree that both are spelled from: one step down its parts are smaller.
  induction hsize : t.size using Nat.strongRecOn generalizing t a b with
  | ind size ih =>
      have hstep : ∀ step, a.step? step = b.step? step := by
        intro step
        have hbelow : ∀ q, (a.step? step).bind (·.sketch q) = (b.step? step).bind (·.sketch q) := by
          intro q
          have := hsketch (step :: q)
          simpa [sketch, at?_cons, Option.map_bind, Function.comp_def] using this
        cases hastep : a.step? step with
        | none =>
            have := hbelow []
            rw [hastep] at this
            cases hbstep : b.step? step with
            | none => rfl
            | some m => simp [hbstep, sketch] at this
        | some m =>
            cases hbstep : b.step? step with
            | none =>
                have := hbelow []
                simp [hastep, hbstep, sketch] at this
            | some m' =>
                rw [hastep, hbstep] at hbelow
                obtain ⟨n, hn, hm⟩ := ha.exists_of_step? hastep
                obtain ⟨n', hn', hm'⟩ := hb.exists_of_step? hbstep
                rw [hn] at hn'
                cases hn'
                have hlt : n.size < size := hsize ▸ size_edges_lt (mem_edges_iff.mpr ⟨rfl, hn⟩)
                rw [ih n.size hlt hm hm' hbelow rfl]
      have hout : a.outline = b.outline := Option.some.inj (hsketch [])
      have hget := get?_ext hout hstep
      cases ha with
      | node h₁ =>
          cases hb with
          | node h₂ => rw [h₁.ext h₂ fun name _ => hget name]

/-! ## Mapping names -/

variable (f : String → String)

/-- An identifier with its name mapped. Any other node is left alone. -/
def mapName (n : Node) : Node :=
  if isNamed n then (n.name?.map fun name => n.setName (f name)).getD n else n

/-- A tree with the names mapped of all identifiers that a traversal meets. -/
def mapNames (t : Node) : Node := t.positions.foldl (fun u q => u.modifyAt (mapName f) q) t

variable {f}

theorem mapName_of_not_isNamed (h : isNamed n = false) : mapName f n = n := by
  rw [mapName, h, if_neg Bool.false_ne_true]

theorem mapName_of_name? (h : isNamed n = true) (hname : n.name? = some name) :
    mapName f n = n.setName (f name) := by
  rw [mapName, if_pos h, hname]
  rfl

theorem mapName_of_nameless (hname : n.name? = none) : mapName f n = n := by
  rw [mapName, hname]
  split <;> rfl

theorem setName_eq_self (h : n.name? = some name) : n.setName name = n :=
  set_eq_self (name?_eq_some_iff.mp h)

/-- Names that are mapped to themselves stay. -/
theorem mapName_eq_self (h : isNamed n = true → ∀ name, n.name? = some name → f name = name) :
    mapName f n = n := by
  cases hnamed : isNamed n with
  | false => exact mapName_of_not_isNamed hnamed
  | true =>
      cases hname : n.name? with
      | none => exact mapName_of_nameless hname
      | some name => rw [mapName_of_name? hnamed hname, h hnamed name hname, setName_eq_self hname]

theorem isNamed_outline (n : Node) : isNamed n.outline = isNamed n := rfl

theorem outline_mapName (n : Node) : (mapName f n).outline = mapName f n.outline := by
  unfold mapName
  rw [isNamed_outline, name?_outline]
  split
  · cases n.name? with
    | none => rfl
    | some name => exact outline_setName n (f name)
  · rfl

theorem step?_mapName (n : Node) (step : Step) : (mapName f n).step? step = n.step? step := by
  unfold mapName
  split
  · cases hname : n.name? with
    | none => rfl
    | some name => exact step?_setName hname _ step
  · rfl

theorem respelled_mapName (n : Node) : Respelled n (mapName f n) := by
  unfold mapName
  split
  · rename_i hnamed
    cases hname : n.name? with
    | none => exact .refl n
    | some name => exact respelled_setName hnamed hname _
  · exact .refl n

/-- One position after the other. -/
theorem sketch_foldl_mapName {l : List Path} (hnodup : l.Nodup) (hl : ∀ q ∈ l, (t.sketch q).isSome)
    (q : Path) :
    (l.foldl (fun u q => u.modifyAt (mapName f) q) t).sketch q
      = if q ∈ l then (t.sketch q).map (mapName f) else t.sketch q := by
  induction l generalizing t with
  | nil => rfl
  | cons p l ih =>
      obtain ⟨hp, hnodup⟩ := List.nodup_cons.mp hnodup
      obtain ⟨n, hn⟩ : ∃ n, t.at? p = some n := by
        have hsome := hl p List.mem_cons_self
        rwa [sketch, Option.isSome_map, Option.isSome_iff_exists] at hsome
      have hone (r : Path) := sketch_modifyAt hn (fun step => step?_mapName (f := f) n step) r
      have hrest : ∀ r ∈ l, ((t.modifyAt (mapName f) p).sketch r).isSome := by
        intro r hr
        have hne : r ≠ p := fun heq => hp (heq ▸ hr)
        rw [hone, if_neg hne]
        exact hl r (List.mem_cons_of_mem _ hr)
      rw [List.foldl_cons, ih hnodup hrest, hone]
      by_cases hq : q = p
      · subst hq
        rw [if_neg hp, if_pos rfl, if_pos List.mem_cons_self, sketch, hn, outline_mapName]
        rfl
      · rw [if_neg hq]
        simp [hq]

theorem sketch_mapNames (f : String → String) (t : Node) (q : Path) :
    (mapNames f t).sketch q
      = if q ∈ t.positions then (t.sketch q).map (mapName f) else t.sketch q := by
  apply sketch_foldl_mapName t.nodup_positions
  intro r hr
  obtain ⟨n, hn⟩ := mem_positions_iff.mp hr
  rw [sketch, at?_of_met? hn]
  rfl

theorem respelled_mapNames (f : String → String) (t : Node) : Respelled t (mapNames f t) := by
  have hrun : ∀ l : List Path, (∀ q ∈ l, q ∈ t.positions) → ∀ u : Node, Respelled t u →
      Respelled t (l.foldl (fun u q => u.modifyAt (mapName f) q) u) := by
    intro l
    induction l with
    | nil => exact fun _ _ h => h
    | cons q l ih =>
        intro hl u h
        obtain ⟨n, hn⟩ := mem_positions_iff.mp (hl q List.mem_cons_self)
        obtain ⟨m, hm, _⟩ := h.met? hn
        apply ih fun r hr => hl r (List.mem_cons_of_mem _ hr)
        exact h.trans (.modifyAt hm (respelled_mapName m))
  exact hrun t.positions (fun _ hq => hq) t (.refl t)

end Minifier.Mangle
